import MicroJava.Proofs.Verification.Value

/-! # Expressions on stacks of types

The items of an expression leave on the stack what its operand needs, whatever lies there already.
The arguments of a call lie on the stack in the types of the parameters. This holds of expressions
that select no field from the name of a method: there the method is called without its arguments.
-/

namespace MicroJava

open Syntax Operand SymbolTable TypeTable List MicroJava.Frame

/-! ## Names of methods that nothing is selected from -/

namespace SymbolTable

variable {t : SymbolTable} {uses more : List Use}

/-- Whether no use selects from the name of a method. -/
def Unselected (t : SymbolTable) (uses : List Use) : Prop :=
  ∀ u ∈ uses, u.IsSelected → t.calleeOf? u.name = none

@[simp] theorem unselected_nil : t.Unselected [] := by simp [Unselected]

@[simp] theorem unselected_append :
    t.Unselected (uses ++ more) ↔ t.Unselected uses ∧ t.Unselected more := by
  simp only [Unselected, mem_append, or_imp, forall_and]

@[simp] theorem unselected_cons {u : Use} : t.Unselected (u :: uses) ↔
    (u.IsSelected → t.calleeOf? u.name = none) ∧ t.Unselected uses := by
  simp [Unselected]

end SymbolTable

namespace Compile

theorem splitParameters_append (e : Entity) :
    (splitParameters e).1 ++ (splitParameters e).2.toList = e.parameters := by
  unfold splitParameters
  split
  · cases last : e.parameters.getLast? with
    | none => simp [getLast?_eq_none_iff.mp last]
    | some id => exact dropLast_append_getLast? id last
  · simp

theorem mem_splitParameters {e : Entity} {last : EntityId} (member : last ∈ (splitParameters e).2) :
    e.hasVarArgs = true ∧ last ∈ e.parameters.getLast? := by
  unfold splitParameters at member
  split at member
  · next collects => exact ⟨collects, member⟩
  · cases member

end Compile

namespace Frame

/-! ## Items that leave an operand -/

/-- Whether items leave on the stack what an operand needs. -/
def Leaves (v : Frame) (items : List Item) (x : Operand) : Prop :=
  ∃ held, v.Holds x held ∧ ∀ σ, v.Typed σ items (held ++ σ)

/-- Whether items push a value of a type. -/
def Pushes (v : Frame) (items : List Item) (a : TypeId) : Prop :=
  ∀ σ, v.Typed σ items (v.stackType a :: σ)

variable {v : Frame} {items front back : List Item} {x : Operand} {a : TypeId}

theorem Leaves.load (leaves : v.Leaves items x) (sound : v.Sound) (valued : x.isValueless = false)
    (notMethod : x.kind ≠ .method) : v.Pushes (items ++ x.loadItems) x.type := by
  obtain ⟨held, holds, typed⟩ := leaves
  exact fun σ => (typed σ).append (holds.load sound valued notMethod σ)

theorem Pushes.leaves (pushes : v.Pushes items x.type) (stack : x.kind = .stack) :
    v.Leaves items x := ⟨_, .stack stack, pushes⟩

theorem Pushes.scalar (pushes : v.Pushes items a) (sound : v.Sound) (scalar : a = .int ∨ a = .char)
    (σ : List StackType) : v.Typed σ items (.scalar :: σ) := by
  have typed := pushes σ
  rwa [stackType_scalar sound scalar] at typed

/-- Whether values of some types can be passed for parameters. -/
def Passes (v : Frame) (values : List TypeId) (parameters : List EntityId) : Prop :=
  List.Forall₂ (fun a parameter => v.table.types.IsValue a ∧
    v.table.types.assignable a (v.table.entity parameter).type = true) values parameters

/-- Whether items push the arguments for parameters, the last one on top. -/
def Supplies (v : Frame) (items : List Item) (parameters : List EntityId) : Prop :=
  ∃ values, v.Passes values parameters ∧
    ∀ σ, v.Typed σ items ((values.map v.stackType).reverse ++ σ)

theorem Supplies.append {parameters more : List EntityId} (first : v.Supplies front parameters)
    (second : v.Supplies back more) : v.Supplies (front ++ back) (parameters ++ more) := by
  obtain ⟨values, passes, typed⟩ := first
  obtain ⟨values', passes', typed'⟩ := second
  refine ⟨values ++ values', rel_append passes passes', fun σ => ?_⟩
  simpa using (typed σ).append (typed' _)

theorem Pushes.supplies {parameter : EntityId} (pushes : v.Pushes items a)
    (isValue : v.table.types.IsValue a)
    (assignable : v.table.types.assignable a (v.table.entity parameter).type = true) :
    v.Supplies items [parameter] :=
  ⟨[a], .cons ⟨isValue, assignable⟩ .nil, fun σ => by simpa using pushes σ⟩

/-! ## What a method body can name -/

variable {t u : SymbolTable} {name : String} {id : EntityId}

section

variable (describes : v.Describes u)

include describes

theorem Describes.agreesAt (widens : t.Widens u) : t.Agrees v.table :=
  widens.persists.agrees.trans describes.agrees

theorem Describes.assignable (widens : t.Widens u) {a b : TypeId}
    (assignable : t.types.assignable a b = true) : v.table.types.assignable a b = true :=
  have agrees := describes.agreesAt widens
  agrees.keeps.assignable agrees.typeCount assignable

theorem Describes.isValue (widens : t.Widens u) (isValue : t.types.IsValue a) :
    v.table.types.IsValue a :=
  isValue.imp_right (describes.agreesAt widens).keeps.isData

/-- A name needs nothing on the stack. -/
theorem Describes.holds (sound : v.Sound) (found : u.lookup? name = some id)
    (denotes : kindOf (u.entity id) ≠ .nothing) :
    v.Holds (ofEntity id (u.entity id)).result [] := by
  have inside := describes.inside name id found
  have agrees := describes.agrees.entity id inside
  cases kind : (u.entity id).kind with
  | con =>
    have type := sound.wellTyped.constant (describes.agrees.contains id inside)
      (agrees.kind.trans kind)
    rw [agrees.type, agrees.value] at type
    exact .con (by simp [ofEntity, kindOf, kind]) type
  | var =>
    obtain ⟨_, slot, adr, known⟩ := describes.slot name id found kind
    split at known
    · next level =>
      exact .staticVar (by simp [ofEntity, kindOf, kind, level]) adr known
    · next level =>
      exact .localVar (by simp [ofEntity, kindOf, kind, level]) adr known
  | method => exact .method (by simp [ofEntity, kindOf, kind])
  | type | program => exact absurd (by simp [kindOf, kind]) denotes

/-- A field of an object stands at its index. -/
theorem Describes.field_known (sound : v.Sound) (widens : t.Widens u)
    (isClass : t.types.isClass a = true)
    (found : t.search (t.types.fields a).reverse name = some id) :
    v.stackType a = .object a ∧ v.table.types.isClass a = true ∧ ∃ index : Nat,
      (t.entity id).adr = index ∧ (v.table.types.fields a)[index]? = some id ∧
      (t.entity id).type = (v.table.entity id).type := by
  have agrees := describes.agreesAt widens
  have known : t.types.contains a = true :=
    contains_of_isReference (by simp [isReference, isClass])
  have fields : v.table.types.fields a = t.types.fields a :=
    congrArg TypeInfo.fields (agrees.info a known)
  have member : id ∈ t.types.fields a := by simpa using (Scope.mem_of_search found).1
  have inside : t.contains id = true := by
    rw [← widens.contains]
    refine describes.field a id ?_
    have same : u.types.fields a = t.types.fields a :=
      congrArg TypeInfo.fields (widens.persists.info a known)
    exact same ▸ member
  have isClass' : v.table.types.isClass a = true := agrees.keeps.isClass isClass
  have notNull : a ≠ .null := by
    rintro rfl
    have none : v.table.types.fields .null = [] :=
      congrArg TypeInfo.fields (sound.wellTyped.based.info .null (by decide))
    rw [← fields, none] at member
    cases member
  obtain ⟨index, at_⟩ := mem_iff_getElem?.mp member
  rw [← fields] at at_
  have same := agrees.entity id inside
  exact ⟨stackType_object isClass' notNull, isClass', index,
    same.adr.symm.trans (sound.wellTyped.field a index id at_).2, at_, same.type.symm⟩

end

private theorem takes_newArray (isArray : v.table.types.isArray a = true) (σ : List StackType) :
    v.Takes (.scalar :: σ) (.newArray (v.table.types.elemType a)) (.array a :: σ) := by
  refine ⟨.newArray isArray, fun pair member => ?_⟩
  simp only [Opcode.widths, zip_cons_cons, zip_nil_right, mem_singleton] at member
  subst member
  change Width.byte.Fits (if _ then _ else _)
  unfold Width.Fits
  split <;> decide

/-- Predeclared methods have one parameter. -/
theorem Sound.passes_one (sound : v.Sound) {values : List TypeId} {b : TypeId}
    (parameter : EntityId) (passes : v.Passes values (v.table.entity id).parameters)
    (known : initial.contains id = true ∧ initial.contains parameter = true)
    (one : (initial.entity id).parameters = [parameter])
    (type : (initial.entity parameter).type = b) :
    ∃ a, values = [a] ∧ v.table.types.IsValue a ∧ v.table.types.assignable a b = true := by
  have based := sound.wellTyped.based
  rw [based.entity id known.1, one] at passes
  obtain _ | ⟨⟨isValue, assignable⟩, rest⟩ := passes
  cases rest
  rw [based.entity parameter known.2, type] at assignable
  exact ⟨_, rfl, isValue, assignable⟩

theorem Sound.result_scalar (sound : v.Sound) (scalar : a = .int ∨ a = .char) :
    v.result a = [.scalar] := by
  have some : a ≠ .none := by rcases scalar with rfl | rfl <;> decide
  simp [result, some, stackType_scalar sound scalar]

/-- A call takes the arguments off the stack and leaves the result there. -/
theorem Describes.call (describes : v.Describes u) (sound : v.Sound)
    (isMethod : (u.entity id).kind = .method) (adr : x.adr = (u.entity id).adr)
    (type : x.type = (u.entity id).type)
    (supplies : v.Supplies items (v.table.entity id).parameters) (σ : List StackType) :
    v.Typed σ (items ++ x.callItems id) (v.result x.type ++ σ) := by
  have agrees := describes.agrees.entity id (contains_of_method isMethod)
  obtain ⟨values, passes, typed⟩ := supplies
  refine (typed σ).append ?_
  unfold callItems
  split
  · next isChar =>
    rcases isChar with rfl | rfl
    · obtain ⟨a, rfl, _, assignable⟩ :=
        sound.passes_one ⟨5⟩ passes (by decide) (by decide) (show _ = TypeId.int by decide)
      have char : x.type = .char := by rw [type, describes.based.entity _ (by decide)]; decide
      rw [sound.result_scalar (.inr char), map_singleton,
        sound.scalar_of_assignable (.inl rfl) assignable]
      exact .nil
    · obtain ⟨a, rfl, _, assignable⟩ :=
        sound.passes_one ⟨7⟩ passes (by decide) (by decide) (show _ = TypeId.char by decide)
      have int : x.type = .int := by rw [type, describes.based.entity _ (by decide)]; decide
      rw [sound.result_scalar (.inl int), map_singleton,
        sound.scalar_of_assignable (.inr rfl) assignable]
      exact .nil
  · next notChar =>
    obtain ⟨notChr, notOrd⟩ := not_or.mp notChar
    split
    · next isLen =>
      subst isLen
      obtain ⟨a, rfl, isValue, assignable⟩ := sound.passes_one ⟨9⟩ passes (by decide) (by decide)
        (show _ = openArray by decide)
      have int : x.type = .int := by rw [type, describes.based.entity _ (by decide)]; decide
      rw [sound.result_scalar (.inl int)]
      exact (takes_bare (.arrayLength (sound.fits isValue assignable)) _).typed
    · next notLen =>
      have own : v.table.IsMethod id := ⟨agrees.kind.trans isMethod,
        (describes.based.isMethod_of_ne isMethod notChr notOrd notLen).declared⟩
      obtain ⟨target, _, begins⟩ := sound.placed id own
      refine Takes.typed ⟨target, by rw [adr, ← agrees.adr, begins], fun operands => ?_⟩
      rw [type, ← agrees.type]
      refine .call own begins ?_ ?_
      · rw [length_map, passes.length_eq, (sound.prepared id own).count]
      · rw [parameterTypes, forall₂_map_left_iff, forall₂_map_right_iff]
        exact passes.imp fun _ _ pair => sound.fits pair.1 pair.2

end Frame

namespace Syntax

open SymbolTable

/-- Whether a relation for expressions leaves on the stack what operands need, in tables that become
the one that a frame describes. -/
def Typing (v : Frame) (u : SymbolTable) (rule : Translation Expr) : Prop :=
  ∀ ⦃t e items x t'⦄, rule t e items x t' → t.Standing → t'.Widens u → u.Unselected e.uses →
    v.Leaves items x

section

variable {v : Frame} {u : SymbolTable} {levels : Nat} {t t' : SymbolTable}
  {items front : List Item} {x y : Operand}
  (sound : v.Sound) (inner : Typing v u (Expr.Compiles levels))

include sound inner

theorem Typing.pushes {e : Expr} (compiles : Expr.Compiles levels t e items x t')
    (standing : t.Standing) (last : t'.Widens u) (unselected : u.Unselected e.uses)
    (valued : x.isValueless = false) : v.Pushes (items ++ x.loadItems) x.type :=
  (inner compiles standing last unselected).load sound valued compiles.outline.2

variable (describes : v.Describes u)

include describes

/-- Selectors load what they select from. -/
theorem Selector.Apply.leaves {selectors : List Selector}
    (applies : Selector.Apply (Expr.Compiles levels) t x selectors items y t')
    (standing : t.Standing) (last : t'.Widens u)
    (unselected : u.Unselected (Selector.listUses selectors)) (leaves : v.Leaves front x)
    (notMethod : x.kind ≠ .method) : v.Leaves (front ++ items) y := by
  induction applies generalizing front with
  | nil => simpa using leaves
  | @field t x name id rest items y t' isClass valued found more ih =>
    have widens := (more.outlines (names_of_ne (by simp))).1.widens.trans last
    obtain ⟨object, isClass', index, adr, known, type⟩ :=
      describes.field_known sound widens isClass found
    rw [Selector.listUses, unselected_append] at unselected
    have loaded := leaves.load sound valued notMethod
    simp only [Frame.Pushes, object] at loaded
    have selected := ih standing last unselected.2
      ⟨_, .field rfl isClass' adr known type, loaded⟩ (by simp)
    simpa using selected
  | @index t x e items1 index t1 rest items2 y t' storable inner_ int valued isArray more ih =>
    have widens := (more.outlines (names_of_ne (by simp))).1.widens.trans last
    have agrees := describes.agreesAt widens
    obtain ⟨isArray', elem⟩ := agrees.keeps.isArray isArray
    rw [Selector.listUses, Selector.uses, unselected_append] at unselected
    have loaded := leaves.load sound (valued_of_isVariable storable) notMethod
    have indexed := inner.pushes sound inner_ standing widens unselected.1 valued
    have typed (σ : List StackType) : v.Typed σ
        ((front ++ x.loadItems) ++ (items1 ++ index.loadItems)) ([.scalar, .array x.type] ++ σ) := by
      have array := loaded σ
      rw [stackType_array sound isArray'] at array
      exact array.append (indexed.scalar sound (.inl int) _)
    have selected := ih (inner_.outline.1.widens.standing standing) last unselected.2
      ⟨_, .element rfl isArray' elem.symm, typed⟩ (by simp)
    simpa using selected

theorem Designator.Compiles.leaves {d : Designator}
    (compiles : d.Compiles (Expr.Compiles levels) t items x t') (standing : t.Standing)
    (last : t'.Widens u) {args : Option Arguments}
    (unselected : u.Unselected (⟨d, args⟩ :: d.innerUses)) : v.Leaves items x := by
  obtain @⟨_, name, id, selectors, _, _, _, found, denotes, selected⟩ := compiles
  have widens : t.Widens u := (selected.outlines
    (names_ofEntity t id)).1.widens.trans last
  rw [← widens.entity] at denotes selected
  rw [← widens.lookup] at found
  obtain ⟨notSelected, inSelectors⟩ := unselected_cons.mp unselected
  rw [Designator.innerUses] at inSelectors
  have start : v.Leaves [] (ofEntity id (u.entity id)).result :=
    ⟨_, describes.holds sound found denotes, fun _ => .nil⟩
  by_cases method : (u.entity id).kind = .method
  · have kind : kindOf (u.entity id) = .method := kindOf_eq_method.mpr method
    cases selected with
    | nil => exact start
    | index storable => simp [ofEntity, isVariable, kind] at storable
    | field =>
      have callee : u.calleeOf? name = .none := notSelected (Use.isSelected_field _ _ _ _)
      simp [calleeOf?_eq found, callee?, method] at callee
  · have notMethod : (ofEntity id (u.entity id)).result.kind ≠ .method :=
      fun isMethod => method (kindOf_eq_method.mp isMethod)
    exact selected.leaves sound inner describes standing last inSelectors start notMethod

/-! ## Arguments -/

theorem Expr.Fit.supplies {parameters : List EntityId} {es : List Expr}
    (fit : Expr.Fit (Expr.Compiles levels) t parameters es items t') (standing : t.Standing)
    (last : t'.Widens u) (unselected : u.Unselected (Expr.listUses es))
    (inside : ∀ parameter ∈ parameters, u.contains parameter = true) :
    v.Supplies items parameters := by
  induction fit with
  | nil => exact ⟨[], .nil, fun _ => .nil⟩
  | @cons t parameter parameters e rest items1 x t1 items2 t' inner_ valued fits more ih =>
    have widens := more.outlines.widens.trans last
    rw [Expr.listUses, unselected_append] at unselected
    have type : (v.table.entity parameter).type = (t1.entity parameter).type := by
      rw [← widens.entity]
      exact (describes.agrees.entity parameter (inside parameter mem_cons_self)).type
    have isValue := Expr.Compiles.values inner_ standing valued inner_.outline.2
    have first := (inner.pushes sound inner_ standing widens unselected.1 valued).supplies
      (describes.isValue widens isValue) (type ▸ describes.assignable widens fits)
    exact first.append (ih (inner_.outline.1.widens.standing standing) last unselected.2
      fun other member => inside other (mem_cons_of_mem _ member))

/-- Filling an array leaves it on the stack. -/
theorem Expr.Fill.typed {index : Nat} {a : TypeId} {es : List Expr}
    (isArray : v.table.types.isArray a = true) (isData : v.table.types.IsData a)
    (fill : Expr.Fill (Expr.Compiles levels) t index (v.table.types.elemType a) es items t')
    (standing : t.Standing) (last : t'.Widens u) (unselected : u.Unselected (Expr.listUses es))
    (σ : List StackType) : v.Typed (.array a :: σ) items (.array a :: σ) := by
  have elem := sound.wellTyped.based.isData_elem isData isArray
  generalize same : v.table.types.elemType a = declared at fill
  induction fill with
  | nil => exact .nil
  | @cons t index declared e rest items1 x t1 elem' items2 t' inner_ decided fits valued more ih =>
    subst same
    rw [if_neg (sound.wellTyped.based.ne_none elem)] at decided
    subst decided
    have widens := more.outlines.widens.trans last
    rw [Expr.listUses, unselected_append] at unselected
    have value := inner.pushes sound inner_ standing widens unselected.1 valued
    have place : v.Holds { kind := .element, type := v.table.types.elemType a }
        [.scalar, .array a] := .element rfl isArray rfl
    have isValue := Expr.Compiles.values inner_ standing valued inner_.outline.2
    have stored := place.store sound rfl (describes.isValue widens isValue)
      (describes.assignable widens fits) (.array a :: σ)
    have begun : v.Typed (.array a :: σ)
        [.plain .dup [] ⟨rfl, rfl⟩, .const (Int32.ofNat index).toInt]
        ([.scalar, .array a] ++ .array a :: σ) :=
      .cons (takes_bare .dup _) (takes_const v _ _).typed
    have filled := ((begun.append (value _)).append stored).append
      (ih (inner_.outline.1.widens.standing standing) last unselected.2 rfl)
    simpa [storeItems] using filled

/-- The arguments that are collected lie on the stack as one array. -/
theorem VarArguments.Collect.supplies {parameter : Option EntityId} {extra : Option VarArguments}
    (collect : VarArguments.Collect (Expr.Compiles levels) t parameter extra items t')
    (standing : t.Standing) (last : t'.Widens u)
    (unselected : u.Unselected (extra.elim [] VarArguments.uses))
    (collects : ∀ id ∈ parameter, t.contains id = true ∧ t.types.IsData (t.entity id).type ∧
      t.types.isArray (t.entity id).type = true) : v.Supplies items parameter.toList := by
  have agrees := describes.agreesAt (collect.outlines.widens.trans
    last)
  -- What the parameter is in the end, and the array that is made for it.
  have array {id : EntityId} (member : id ∈ parameter) :
      v.table.types.IsData (v.table.entity id).type ∧
      v.table.types.isArray (v.table.entity id).type = true ∧
      v.table.types.elemType (v.table.entity id).type = t.types.elemType (t.entity id).type ∧
      ∀ (size : Int32) σ, v.Typed σ
        [.const size.toInt, .newArray (t.types.elemType (t.entity id).type)]
        (.array (v.table.entity id).type :: σ) := by
    obtain ⟨inside, isData, isArray⟩ := collects id member
    rw [(agrees.entity id inside).type]
    obtain ⟨isArray, elem⟩ := agrees.keeps.isArray isArray
    refine ⟨agrees.keeps.isData isData, isArray, elem, fun size σ => ?_⟩
    rw [← elem]
    exact .cons (takes_const v size σ) (takes_newArray isArray σ).typed
  have supplied {id : EntityId} (member : id ∈ parameter)
      (typed : ∀ σ, v.Typed σ items (.array (v.table.entity id).type :: σ)) :
      v.Supplies items [id] := by
    obtain ⟨isData, isArray, _⟩ := array member
    rw [← stackType_array sound isArray] at typed
    exact Pushes.supplies typed (.inr isData) (assignable_refl _)
  cases collect with
  | none => exact ⟨[], .nil, fun _ => .nil⟩
  | omitted =>
    obtain ⟨_, _, _, made⟩ := array rfl
    exact supplied rfl (made 0)
  | @filled parameter size values items t' fill count =>
    obtain ⟨isData, isArray, elem, made⟩ := array rfl
    rw [Option.elim_some, VarArguments.uses] at unselected
    rw [← elem] at fill
    exact supplied rfl fun σ => (made size σ).append
      (fill.typed sound inner describes isArray isData standing last unselected σ)

theorem Arguments.Pass.supplies {id : EntityId} {args : Arguments}
    (pass : args.Pass (Expr.Compiles levels) t id items t') (standing : t.Standing)
    (last : t'.Widens u) (unselected : u.Unselected args.uses)
    (isMethod : (t.entity id).kind = .method) :
    v.Supplies items (v.table.entity id).parameters := by
  have widens := pass.outlines.widens.trans last
  obtain @⟨fixed, extra, _, t1, _, _, fit, collect⟩ := pass
  have callable := standing.callables id isMethod
  have further : t1.Widens u := collect.outlines.widens.trans last
  have within := fit.outlines.widens
  have unselected' : u.Unselected (Expr.listUses fixed) ∧
      u.Unselected (extra.elim [] VarArguments.uses) := by
    cases extra <;> simpa [Arguments.uses] using unselected
  have agrees := (describes.agreesAt widens).entity id (contains_of_method isMethod)
  rw [agrees.parameters, ← Compile.splitParameters_append]
  refine (fit.supplies sound inner describes standing further unselected'.1 ?_).append
    (collect.supplies sound inner describes (within.standing standing) last unselected'.2 ?_)
  · intro parameter member
    rw [widens.contains]
    refine callable.inside parameter ?_
    rw [← Compile.splitParameters_append]
    exact mem_append_left _ member
  · intro parameter member
    obtain ⟨collects, isLast⟩ := Compile.mem_splitParameters member
    obtain ⟨isData, isArray⟩ := callable.collects collects parameter isLast
    have inside := callable.inside parameter (mem_of_getLast? isLast)
    have keeps := within.persists.agrees.keeps
    rw [within.entity, within.contains]
    exact ⟨inside, keeps.isData isData, (keeps.isArray isArray).1⟩

/-! ## Factors, terms and sums -/

/-- A call leaves the result of the method on the stack. -/
theorem typed_call {d : Designator} {id : EntityId} {args : Arguments} {t1 : SymbolTable}
    (designator : d.Compiles (Expr.Compiles levels) t front x t1) (isMethod : x.kind = .method)
    (method : x.method = some id) (pass : args.Pass (Expr.Compiles levels) t1 id items t')
    (standing : t.Standing) (last : t'.Widens u) (unselected : u.Unselected args.uses) :
    ∀ σ, v.Typed σ (front ++ items ++ x.callItems id) (v.result x.type ++ σ) := by
  have widens := pass.outlines.widens.trans last
  obtain ⟨name, rfl, rfl, rfl, rfl, found, isEntity⟩ := designator.method isMethod method
  have supplies := pass.supplies sound inner describes standing last unselected isEntity
  rw [← widens.entity] at isEntity ⊢
  exact describes.call sound isEntity rfl rfl supplies

theorem Factor.Compiles.leaves {f : Factor}
    (compiles : f.Compiles (Expr.Compiles levels) t items x t') (standing : t.Standing)
    (last : t'.Widens u) (unselected : u.Unselected f.uses) : v.Leaves items x := by
  have based := sound.wellTyped.based
  cases compiles with
  | @value t d items x t' designator =>
    rw [Factor.uses] at unselected
    obtain ⟨held, holds, typed⟩ := designator.leaves sound inner describes standing last unselected
    unfold asValue
    split
    · next method =>
      refine ⟨[], .nothing rfl, ?_⟩
      cases holds with
      | method => exact typed
      | con kind | localVar kind | staticVar kind | stack kind | field kind | element kind
      | nothing kind => simp [kind] at method
    · exact ⟨held, holds, typed⟩
  | @call t d items1 x t1 id args items2 t' designator isMethod method result arguments =>
    rw [Factor.uses, unselected_append, unselected_append] at unselected
    have typed := typed_call sound inner describes designator isMethod method arguments standing
      last unselected.1.2
    simp only [Frame.result, if_neg result] at typed
    exact Pushes.leaves typed rfl
  | number => exact ⟨[], .con rfl (.inl (.inl rfl)), fun _ => .nil⟩
  | character => exact ⟨[], .con rfl (.inl (.inr rfl)), fun _ => .nil⟩
  | @object _ name id found isType isClass =>
    have agrees := describes.agreesAt last
    have isData := agrees.isData_type sound.wellTyped isType
    have isClass' := agrees.keeps.isClass isClass
    have fields : v.table.types.fields (t.entity id).type = t.types.fields (t.entity id).type :=
      congrArg TypeInfo.fields (agrees.info _ (contains_of_isReference
        (by simp [isReference, isClass])))
    refine Pushes.leaves (fun σ => Takes.typed ?_) rfl
    have bound := sound.wellTyped.fieldCount (t.entity id).type
    simp only [Limits.supported] at bound
    rw [onStack, stackType_object isClass' (based.ne_null isData), ← fields]
    exact ⟨.new isClass', by simpa [Opcode.widths] using fits_short bound⟩
  | @array _ name id e items size t1 found isType inner_ int valued =>
    rw [Factor.uses] at unselected
    have widens : t1.Widens u := (Widens.array _ .refl).trans last
    obtain ⟨isArray, elem⟩ := (describes.agreesAt last).keeps.isArray
      (isArray_addArray t1.types (t.entity id).type).1
    replace elem := elem.trans (isArray_addArray t1.types (t.entity id).type).2
    have sized := inner.pushes sound inner_ standing widens unselected valued
    refine Pushes.leaves (fun σ => ?_) rfl
    refine (sized.scalar sound (.inl int) σ).behind ?_
    have made := takes_newArray isArray σ
    rwa [elem, ← stackType_array sound isArray] at made
  | paren inner_ =>
    rw [Factor.uses] at unselected
    exact inner inner_ standing last unselected

omit inner describes in
/-- A chain of operators on numbers. -/
theorem Chained.leaves {Op φ : Type} {item : Op → Item} {operand : Translation φ}
    {uses : φ → List Use} (plain : ∀ op, (item op).isPlain = true)
    (arithmetic : ∀ op σ, v.Takes (.scalar :: .scalar :: σ) (item op) (.scalar :: σ))
    (outlining : ∀ ⦃t e items x t'⦄, operand t e items x t' →
      Outlines t items t' ∧ x.kind ≠ .method)
    (operands : ∀ ⦃t e items x t'⦄, operand t e items x t' → t.Standing → t'.Widens u →
      u.Unselected (uses e) → v.Leaves items x) {rest : List (Op × φ)}
    (chained : Chained item operand t x rest items y t') (standing : t.Standing)
    (last : t'.Widens u) (unselected : u.Unselected (rest.flatMap fun pair => uses pair.2))
    (leaves : v.Leaves front x) (notMethod : x.kind ≠ .method) : v.Leaves (front ++ items) y := by
  induction chained generalizing front with
  | nil => simpa using leaves
  | @cons t x op e items1 y t1 rest items2 z t' valued inner_ ints valued' more ih =>
    obtain ⟨outlines, notMethod'⟩ := outlining inner_
    have widens := (more.outlines plain outlining (by simp [pushed])).1.widens.trans last
    rw [flatMap_cons, unselected_append] at unselected
    have left := leaves.load sound valued notMethod
    have right := (operands inner_ standing widens unselected.1).load sound valued' notMethod'
    have computed : v.Leaves ((front ++ x.loadItems) ++ (items1 ++ y.loadItems) ++ [item op])
        x.pushed := by
      refine Pushes.leaves (fun σ => ?_) rfl
      rw [type_pushed, stackType_scalar sound (.inl ints.1)]
      exact ((left.scalar sound (.inl ints.1) σ).append
        (right.scalar sound (.inl ints.2) _)).behind (arithmetic op σ)
    have chain := ih (outlines.widens.standing standing) last unselected.2 computed
      (by simp [pushed])
    simpa using chain

theorem Term.Compiles.leaves {e : Term} (compiles : e.Compiles (Expr.Compiles levels) t items x t')
    (standing : t.Standing) (last : t'.Widens u) (unselected : u.Unselected e.uses) :
    v.Leaves items x := by
  have outlining : ∀ ⦃t f items x t'⦄, Factor.Compiles (Expr.Compiles levels) t f items x t' →
      Outlines t items t' ∧ x.kind ≠ .method :=
    fun _ _ _ _ _ factor => factor.outlines
  obtain ⟨first, chained⟩ := compiles
  rw [Term.uses, Factor.chainUses_eq, unselected_append] at unselected
  obtain ⟨outlines, notMethod⟩ := outlining first
  have widens := (chained.outlines MulOp.isPlain_item outlining notMethod).1.widens.trans last
  refine chained.leaves sound MulOp.isPlain_item (fun op σ => ?_) outlining
    (fun _ _ _ _ _ factor => factor.leaves sound inner describes)
    (outlines.widens.standing standing) last unselected.2
    (first.leaves sound inner describes standing widens unselected.1) notMethod
  cases op <;> exact takes_bare (.arithmetic rfl) _

omit inner describes in
private theorem leaves_negated (leaves : v.Leaves items x) (int : x.type = .int)
    (valued : x.isValueless = false) (notMethod : x.kind ≠ .method) :
    v.Leaves (items ++ x.negateItems) x.negated := by
  unfold negateItems negated
  split
  · next isCon =>
    obtain ⟨held, holds, typed⟩ := leaves
    cases holds with
    | con => exact ⟨[], .con isCon (.inl (.inl int)), by simpa using typed⟩
    | localVar kind | staticVar kind | stack kind | field kind | element kind | method kind
    | nothing kind => simp [kind] at isCon
  · have loaded := leaves.load sound valued notMethod
    rw [← append_assoc]
    refine Pushes.leaves (fun σ => ?_) rfl
    rw [type_pushed, stackType_scalar sound (.inl int)]
    exact (loaded.scalar sound (.inl int) σ).behind (takes_bare .neg _)

theorem Expr.CompilesIn.leaves : Typing v u (Expr.CompilesIn (Expr.Compiles levels)) := by
  have outlining : ∀ ⦃t e items x t'⦄, Term.Compiles (Expr.Compiles levels) t e items x t' →
      Outlines t items t' ∧ x.kind ≠ .method :=
    fun _ _ _ _ _ term => term.outlines
  have terms : ∀ ⦃t e items x t'⦄, Term.Compiles (Expr.Compiles levels) t e items x t' →
      t.Standing → t'.Widens u → u.Unselected e.uses → v.Leaves items x :=
    fun _ _ _ _ _ term => term.leaves sound inner describes
  have arithmetic (op : AddOp) (σ : List StackType) :
      v.Takes (.scalar :: .scalar :: σ) op.item (.scalar :: σ) := by
    cases op <;> exact takes_bare (.arithmetic rfl) _
  intro t e items x t' compiles standing last unselected
  cases compiles with
  | positive first chained =>
    rw [Expr.uses, Term.chainUses_eq, unselected_append] at unselected
    obtain ⟨outlines, notMethod⟩ := outlining first
    have widens := (chained.outlines AddOp.isPlain_item outlining notMethod).1.widens.trans last
    exact chained.leaves sound AddOp.isPlain_item arithmetic outlining terms
      (outlines.widens.standing standing) last unselected.2
      (terms first standing widens unselected.1) notMethod
  | negative first int valued chained =>
    rw [Expr.uses, Term.chainUses_eq, unselected_append] at unselected
    obtain ⟨outlines, notMethod⟩ := outlining first
    have widens := (chained.outlines AddOp.isPlain_item outlining
      (kind_negated notMethod)).1.widens.trans last
    exact chained.leaves sound AddOp.isPlain_item arithmetic outlining terms
      (outlines.widens.standing standing) last unselected.2
      (leaves_negated sound (terms first standing widens unselected.1) int valued notMethod)
      (kind_negated notMethod)

end

/-- The items of every expression leave on the stack what its operand needs. -/
theorem Expr.Compiles.leaves {v : Frame} {u : SymbolTable} (sound : v.Sound)
    (describes : v.Describes u) (levels : Nat) : Typing v u (Expr.Compiles levels) := by
  induction levels with
  | zero => exact fun _ _ _ _ _ impossible => impossible.elim
  | succ levels ih => exact Expr.CompilesIn.leaves sound ih describes

end Syntax

end MicroJava

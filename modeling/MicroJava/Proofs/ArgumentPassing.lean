import MicroJava.Proofs.Simulation.Effects
import MicroJava.Proofs.Verification.Program

/-! # Arguments arrive as written

The code in front of a call evaluates the arguments from left to right and leaves them on the stack,
those after `#` as the elements of one new array. There are as many as the method has parameters, so
they are its first variables once the method has opened its frame.
-/

namespace MicroJava

open SymbolTable Syntax Items Operand List Machine

variable {id : EntityId}

/-! ## Where methods begin -/

/-- Whether the code of a method begins with an instruction that opens a frame for its parameters. -/
def Entity.Enters (code : List Instruction) (e : Entity) : Prop :=
  ∃ (adr varCount : Nat) (items : List Item), e.adr = adr ∧ e.parameterCount ≤ varCount ∧
    varCount ≤ 127 ∧
    Items.At code adr (.plain .enter [e.parameterCount, varCount] ⟨rfl, rfl⟩ :: items)

/-- Whether the code of every method of the program does so. -/
def SymbolTable.Entered (code : List Instruction) (t : SymbolTable) : Prop :=
  ∀ id, t.IsMethod id → (t.entity id).Enters code

section

variable {code : List Instruction} {t t' : SymbolTable} {limits : Limits} {limit base : Nat}
  {segments : List (List Item)}

theorem Entity.Agrees.enters {e e' : Entity} (agrees : e.Agrees e') :
    e'.Enters code ↔ e.Enters code := by
  simp only [Entity.Enters, agrees.adr, agrees.parameterCount]

theorem SymbolTable.Agrees.entered (agrees : t.Agrees t') (entered : t'.Entered code) :
    t.Entered code := by
  intro id isMethod
  have same := agrees.entity id (contains_of_method isMethod.kind)
  exact same.enters.mp (entered id ⟨same.kind.trans isMethod.kind, isMethod.declared⟩)

theorem SymbolTable.Agrees.enteredLater (agrees : t.Agrees t')
    (known : ∀ id, t'.contains id = true → t.contains id = true) (entered : t.Entered code) :
    t'.Entered code := by
  intro id isMethod
  have same := agrees.entity id (known id (contains_of_method isMethod.kind))
  exact same.enters.mpr (entered id ⟨same.kind.symm.trans isMethod.kind, isMethod.declared⟩)

theorem Syntax.Method.Compiles.entered {m : Method} {items : List Item}
    (compiles : m.Compiles limits t base items t') (global : t.Global limit)
    (few : limits.locals ≤ 127) (located : At code base items) (entered : t.Entered code) :
    t'.Entered code := by
  obtain ⟨t1, t2, body, opens, sequence, capacity, rfl, _, begins, rfl⟩ := compiles.body
  have widens := (sequence.contained (Stmt.Compiles.contained _)).widens
  have agrees := widens.persists.agrees.trans
    (opens.agrees global.wellTyped global.orderly widens)
  refine agrees.enteredLater (fun id inside => ?_) fun id isMethod => ?_
  · rwa [contains_modify, contains_leave, widens.contains] at inside
  · rcases opens.isMethod id isMethod with old | rfl
    · rw [opens.persists.entity id (contains_of_method old.kind)]
      exact entered id old
    · exact ⟨base, t1.varCount, _, begins.adr,
        opens.parameterCount_le global.wellTyped global.orderly, Nat.le_trans capacity few, located⟩

theorem Syntax.Method.CompileAll.entered {ms : List Method}
    (compiles : Method.CompileAll limits t base ms segments t') (global : t.Global limits.fields)
    (few : limits.locals ≤ 127) (located : At code base segments.flatten)
    (entered : t.Entered code) : t'.Entered code := by
  induction compiles with
  | nil => exact entered
  | cons first _ ih =>
    rw [flatten_cons] at located
    exact ih (first.global global).1 located.right (first.entered global few located.left entered)

theorem Syntax.Program.Yields.entered {p : Program} {source : List Char}
    {globals final : SymbolTable} {buffer : CodeBuffer}
    (yields : p.Yields limits source globals final segments buffer) :
    final.finish.Entered buffer.instructions := by
  have global := yields.toCompiles.global
  have none : globals.Placed fun _ => False :=
    yields.decls.preserves (fun _ _ _ declares => declares.placed) p.start_placed
  have located : At buffer.instructions 0 segments.flatten :=
    ⟨[], [], by simp [CodeBuffer.instructions_eq yields.bytes]⟩
  have entered := yields.methods.entered global (Nat.min_le_right ..) located fun id isMethod =>
    (none id isMethod).elim fun _ impossible => impossible.1.elim
  refine (yields.methods.global global).1.finish.1.enteredLater (fun id inside => ?_) entered
  rwa [SymbolTable.finish, contains_modify, contains_leave] at inside

/-- What comes before a part of a method has no calls but its own. -/
theorem Syntax.exists_methodItems_append (parameterCount varCount : Nat) (front back : List Item)
    (type : TypeId) : ∃ head,
      methodItems parameterCount varCount (front ++ back) type =
        head ++ (back ++ CodeBuffer.finishItems type) ∧ calls head = calls front :=
  ⟨.plain .enter [parameterCount, varCount] ⟨rfl, rfl⟩ :: front, by simp [methodItems], rfl⟩

/-- Items begin with the first instruction of theirs or, if there are none, with the next one. -/
theorem Items.head?_instructions (adr : Nat) (items : List Item) (i : Item) :
    ∃ first, (instructions adr items ++ [i.instruction (adr + size items)]).head? =
      some first ∧ first.addr = adr := by
  cases items with
  | nil => exact ⟨_, rfl, rfl⟩
  | cons j items => exact ⟨_, rfl, rfl⟩

/-- Opening a frame makes the last operands the first variables. -/
theorem Entity.Enters.reaches {e : Entity} (enters : e.Enters code)
    (increasing : Increasing code) {values : List Int32}
    (count : values.length = e.parameterCount) (w : World) (pending : Nat → List Int32)
    (around : Machine) (stack : List Int32) : ∃ (callee : Machine) (free : Nat),
      callee.visible = values ++ replicate free 0 ∧ callee.returns = around.returns ∧
      Reaches code (.running e.adr.toNat (w.machine pending around (values.reverse ++ stack)))
        (.running (e.adr.toNat + 3) (w.machine pending callee stack)) := by
  obtain ⟨adr, varCount, items, begins, fewer, few, located⟩ := enters
  have opens : (Item.plain .enter [e.parameterCount, varCount] ⟨rfl, rfl⟩).execute =
      enterFrame e.parameterCount varCount := by
    refine Item.execute_of_fits ?_
    simp only [Opcode.widths, zip_cons_cons, zip_nil_right, mem_cons, not_mem_nil, or_false]
    rintro pair (rfl | rfl)
    · exact Frame.fits_byte (Nat.le_trans fewer few)
    · exact Frame.fits_byte few
  rw [begins, Int.toNat_natCast]
  refine ⟨{ around with
    locals := around.locals ++ values ++ replicate (varCount - e.parameterCount) 0
    frames := around.locals.length :: around.frames }, varCount - e.parameterCount,
    by simp [visible, frame], rfl, .step ?_⟩
  have enough : ¬ values.length + stack.length < values.length := by omega
  rw [step_sequential increasing located rfl, opens]
  simp only [enterFrame, World.machine, length_append, length_reverse, ← count, enough, if_false]
  simp [goOn, Item.size, Item.opcode, Opcode.size, Opcode.operandBytes, Opcode.widths, Width.bytes]

end

/-- Where a frame describes a table, instructions can name its variables. -/
theorem Frame.Describes.addressable {v : Frame} {t : SymbolTable} (describes : v.Describes t)
    (sound : v.Sound) (wellTyped : t.WellTyped Limits.supported.fields) : t.Addressable := by
  have slots : v.slots.length ≤ 127 := sound.slots
  have globals : v.globals.length ≤ 32767 := sound.globals
  have fields (a : TypeId) : (t.types.fields a).length ≤ 32767 := wellTyped.fieldCount a
  constructor
  · intro name id found isVar isLocal
    obtain ⟨_, slot, adr, inside⟩ := describes.slot name id found isVar
    rw [if_neg isLocal] at inside
    have := (List.getElem?_eq_some_iff.mp inside).1
    omega
  · intro name id found isVar isGlobal
    obtain ⟨_, slot, adr, inside⟩ := describes.slot name id found isVar
    rw [if_pos isGlobal] at inside
    have := (List.getElem?_eq_some_iff.mp inside).1
    omega
  · intro a i id found
    have := (List.getElem?_eq_some_iff.mp found).1
    have := fields a
    exact ⟨(wellTyped.field a i id found).2, by omega⟩

/-- A method that is not predeclared is called at its address. -/
theorem Operand.callItems_own {t : SymbolTable} (own : t.IsMethod id) (x : Operand) :
    x.callItems id = [.call x.adr] := by
  have declared := own.declared
  have notChar : ¬ (id = chr ∨ id = ord) := by
    rintro (rfl | rfl) <;> exact absurd declared (by decide)
  have notLen : id ≠ len := by
    rintro rfl
    exact absurd declared (by decide)
  rw [callItems, if_neg notChar, if_neg notLen]

/-! ## What arguments are -/

namespace Syntax

variable {extra : Option VarArguments}

/-- Whether an expression compiles to a value that is assignable to a type. -/
def Expr.Suits (t : SymbolTable) (e : Expr) (type : TypeId) : Prop :=
  ∃ levels t₁ items x t₂, Expr.Compiles levels t₁ e items x t₂ ∧ t₂.Widens t ∧
    x.isValueless = false ∧ t₂.types.assignable x.type type = true

/-- Whether the code between two addresses pushes what a computation yields, the first value first,
if methods do what they are said to do. -/
def Delivers (code : List Instruction) (t : SymbolTable) (start finish : Nat)
    (c : Calls → List Int32 → Eval (List Int32)) : Prop :=
  ∀ calls, Carries code t calls → ∀ locals w values w', c calls locals w = some (values, w') →
    ∀ pending around stack, around.visible = locals →
      Reaches code (.running start (w.machine pending around stack))
        (.running finish (w'.machine pending around (values.reverse ++ stack)))

/-- What is known of the arguments of a call of a method, which the code between two addresses passes
to it. -/
structure Arrive (code : List Instruction) (t : SymbolTable) (id : EntityId) (fixed : List Expr)
    (extra : Option VarArguments) (start finish : Nat) : Prop where
  fits : List.Forall₂ (fun e parameter => e.Suits t (t.entity parameter).type) fixed
    (Compile.splitParameters (t.entity id)).1
  collected : ∀ size values, extra = some (.mk size values) → (values.length : Int) = size.toInt ∧
    ∃ elem, t.collects? id = some elem ∧ ∀ e ∈ values, e.Suits t elem
  /-- The array for further arguments is made behind the others, and its length is pushed first. -/
  makes : ∀ elem, t.collects? id = some elem → ∃ i ∈ code, i.op? = some .newArray ∧
    i.operands = [if elem = .char then 0 else 1] ∧
    Delivers code t start i.addr fun calls locals => do
      let values ← Expr.runAll t calls locals fixed
      return values ++ [match extra with | some (.mk size _) => size | none => 0]
  delivers : Delivers code t start finish fun calls locals =>
    (Arguments.mk fixed extra).run t calls locals id
  /-- The first variables of the method are the arguments, once it has opened its frame. -/
  enters : t.IsMethod id → ∀ calls, Carries code t calls → ∀ locals w values w',
    (Arguments.mk fixed extra).run t calls locals id w = some (values, w') →
    values.length = (t.entity id).parameters.length ∧
    ∀ pending around stack, around.visible = locals → ∃ (callee : Machine) (free : Nat),
      callee.visible = values ++ List.replicate free 0 ∧
      callee.returns = (finish + 3) :: around.returns ∧
      Reaches code (.running start (w.machine pending around stack))
        (.running ((t.entity id).adr.toNat + 3) (w'.machine pending callee stack))

section

variable {code : List Instruction} {t t' u : SymbolTable} {levels : Nat} {items : List Item}
  {c : Calls → List Int32 → Eval (List Int32)}

theorem Expr.Fit.suits {parameters : List EntityId} {es : List Expr}
    (fit : Expr.Fit (Expr.Compiles levels) t parameters es items t') (last : t'.Widens u) :
    Forall₂ (fun e parameter => e.Suits u (u.entity parameter).type) es parameters := by
  induction fit with
  | nil => exact .nil
  | @cons t parameter parameters e rest items1 x t1 items2 t' inner valued fits more ih =>
    have widens := more.outlines.widens.trans last
    refine .cons ⟨levels, t, items1, x, t1, inner, widens, valued, ?_⟩ (ih last)
    rwa [widens.entity]

theorem Expr.Fill.suits {index : Nat} {elem : TypeId} {es : List Expr}
    (fill : Expr.Fill (Expr.Compiles levels) t index elem es items t') (data : elem ≠ .none)
    (last : t'.Widens u) : ∀ e ∈ es, e.Suits u elem := by
  induction fill with
  | nil => simp
  | @cons t index elem e rest items1 x t1 elem' items2 t' inner decided fits valued more ih =>
    rw [if_neg data] at decided
    subst decided
    have widens := more.outlines.widens.trans last
    exact forall_mem_cons.mpr
      ⟨⟨levels, t, items1, x, t1, inner, widens, valued, fits⟩, ih data last⟩

theorem delivers_of_does {start : Nat}
    (does : ∀ calls, Carries code t calls →
      ∀ locals, Does code locals items [] (c calls locals) reverse) (located : At code start items)
    (near : farCount start items = 0) : Delivers code t start (start + size items) c := by
  intro calls carries locals w values w' done
  exact (does calls carries locals start located near w values w' done).2

/-- An array is made behind the code that pushes some values and its length. -/
theorem delivers_newArray {start : Nat} {elem : TypeId} {back : List Item} (size : Int32)
    (increasing : Increasing code)
    (does : ∀ calls, Carries code t calls →
      ∀ locals, Does code locals items [] (c calls locals) reverse)
    (located : At code start (items ++ ([.const size.toInt, .newArray elem] ++ back)))
    (near : farCount start (items ++ ([.const size.toInt, .newArray elem] ++ back)) = 0) :
    ∃ i ∈ code, i.op? = some .newArray ∧ i.operands = [if elem = .char then 0 else 1] ∧
      Delivers code t start i.addr fun calls locals => do
        let values ← c calls locals
        return values ++ [size] := by
  have split : items ++ ([.const size.toInt, .newArray elem] ++ back) =
      items ++ [.const size.toInt] ++ (.newArray elem :: back) := by simp
  rw [split] at located near
  refine ⟨_, located.right.mem, Item.instruction_op? _ _, ?_, ?_⟩
  · exact Item.instruction_operands_of_fits _ _ (Item.fits_newArray elem)
  · refine delivers_of_does (fun calls carries locals => ?_) located.left
      (farCount_append_eq_zero.mp near).1
    exact (does calls carries locals).bind fun values _ _ _ =>
      does_const increasing size reverse (values ++ [size]) (by simp)

/-- A call of a method finds its arguments on the stack, and they become its first variables. -/
theorem Arguments.Pass.arrive {t1 t2 : SymbolTable} {fixed : List Expr} {start : Nat}
    {back : List Item}
    (pass : (Arguments.mk fixed extra).Pass (Expr.Compiles levels) t1 id items t2)
    (increasing : Increasing code) (addressable : t.Addressable)
    (entered : t.Entered code) (standing : t1.Standing) (last : t2.Widens t)
    (isMethod : (t1.entity id).kind = .method)
    (located : At code start (items ++ (ofEntity id (t.entity id)).result.callItems id ++ back))
    (near : farCount start (items ++ (ofEntity id (t.entity id)).result.callItems id ++ back) = 0) :
    Arrive code t id fixed extra start (start + size items) := by
  have same : t.entity id = t1.entity id := (pass.outlines.widens.trans last).entity id
  have placed : t.Placed fun _ => True := fun id own => by
    obtain ⟨adr, _, _, begins, _⟩ := entered id own
    exact ⟨adr, trivial, begins⟩
  have setting (calls : Calls) (carries : Carries code t calls) : Setting code t calls :=
    ⟨increasing, addressable, placed, carries⟩
  have inner (calls carries locals) :=
    Expr.Compiles.computes (setting calls carries) locals levels
  obtain ⟨nearCall, _⟩ := farCount_append_eq_zero.mp near
  obtain ⟨nearItems, nearCall⟩ := farCount_append_eq_zero.mp nearCall
  have delivers : Delivers code t start (start + size items) fun calls locals =>
      (Arguments.mk fixed extra).run t calls locals id :=
    delivers_of_does (fun calls carries locals => pass.does (setting calls carries)
      (inner calls carries locals) standing last isMethod) located.left.left nearItems
  refine ⟨?_, ?_, ?_, delivers, fun own calls carries locals w values w' done => ?_⟩
  · obtain ⟨fit, collect⟩ := pass
    exact same ▸ fit.suits (collect.outlines.widens.trans last)
  · rintro size values rfl
    obtain ⟨fit, collect⟩ := pass
    generalize parameter : (Compile.splitParameters (t1.entity id)).2 = p at collect
    cases collect with
    | filled fill count =>
      obtain ⟨elem, data⟩ := standing.collects isMethod parameter fit.outlines.widens
        (fill.outlines.widens.trans last)
      exact ⟨count, _, by simp [SymbolTable.collects?, same, parameter, elem], fill.suits data last⟩
  · intro elem collects
    obtain ⟨fit, collect⟩ := pass
    have within := fit.outlines.widens
    have further := collect.outlines.widens.trans last
    have first (calls carries locals) := fit.does (inner calls carries locals) standing further
    simp only [SymbolTable.collects?, same] at collects
    generalize parameter : (Compile.splitParameters (t1.entity id)).2 = p at collect collects
    cases collect with
    | none => cases collects
    | omitted =>
      rw [Option.map_some, (standing.collects isMethod parameter within further).1] at collects
      cases collects
      exact delivers_newArray 0 increasing first (by simpa using located.left.left)
        (by simpa using nearItems)
    | filled fill count =>
      rw [Option.map_some, (standing.collects isMethod parameter within further).1] at collects
      cases collects
      exact delivers_newArray _ increasing first located.left.left nearItems
  · have count := pass.length same done
    refine ⟨count, fun pending around stack visible => ?_⟩
    have passed := delivers calls carries locals w values w' done pending around stack visible
    have enters := (entered id own).reaches increasing
      (by rw [count, same, (standing.callables id isMethod).count]) w' pending
      { around with returns := (start + size items + 3) :: around.returns } stack
    obtain ⟨adr, _, _, begins, _⟩ := entered id own
    rw [begins, Int.toNat_natCast] at enters ⊢
    obtain ⟨callee, free, visible, returns, enter⟩ := enters
    have calls : (ofEntity id (t.entity id)).result.callItems id = [.call adr] :=
      (callItems_own own _).trans (by simp [ofEntity, begins])
    rw [calls] at located nearCall
    have call := step_call increasing located.left.right
      (farCount_cons_eq_zero.mp nearCall).1 (w'.machine pending around (values.reverse ++ stack))
    exact ⟨callee, free, visible, returns, passed.trans ((Reaches.step call).trans enter)⟩

end

/-! ## Calls in programs -/

/-- A method with an address to call is one of the program. -/
theorem isMethod_of_callee {t : SymbolTable} (based : t.Based) {adr : Int}
    (called : t.callee? id = some (.method adr)) : t.IsMethod id ∧ (t.entity id).adr = adr := by
  unfold SymbolTable.callee? at called
  split at called
  · next isMethod =>
    rw [Option.some.injEq] at called
    split at called
    · cases called
    · next other =>
      obtain ⟨notChr, notOrd, notLen⟩ : id ≠ chr ∧ id ≠ ord ∧ id ≠ len := by simpa using other
      cases called
      exact ⟨based.isMethod_of_ne isMethod notChr notOrd notLen, rfl⟩
  · cases called

variable {p : Program} {limits : Limits} {source : List Char} {globals final : SymbolTable}
  {segments : List (List Item)} {code : CodeBuffer} {before : List Method} {m : Method}

/-- The code of a call, between the methods of the program. -/
theorem Program.Yields.arguments (yields : p.Yields limits source globals final segments code)
    (inside : before ++ [m] <+: p.methods) {earlier later : List Use} {name : String}
    {fixed : List Expr} (call : m.uses = earlier ++ ⟨.mk name [], some (.mk fixed extra)⟩ :: later)
    (means : p.meansMethod before m name = true) :
    ∃ (t0 t : SymbolTable) (id : EntityId) (front passed : List Instruction)
      (first next : Instruction) (back : List Instruction),
      p.BodyTable limits.clamped before m t0 ∧ t0.Widens t ∧ t.lookup? name = some id ∧
      (t.entity id).kind = .method ∧ (Program.meansOwn before m name = true → t.IsMethod id) ∧
      (Items.segments 0 segments)[before.length]? = some (front ++ passed ++ next :: back) ∧
      (front ++ passed).filterMap Instruction.callee? =
        (earlier.filterMap t.target?).map Int.toNat ∧
      (passed ++ [next]).head? = some first ∧
      Arrive code.instructions t id fixed extra first.addr next.addr := by
  obtain ⟨front, body, t, t', v, frame⟩ := yields.hasFrame inside
  obtain ⟨t1, earlierMethods, opens⟩ := frame.opens
  obtain ⟨behind, same⟩ := frame.code
  have widens := (frame.statements.contained (Stmt.Compiles.contained _)).widens
  have typed := (widens.standing frame.standing).wellTyped
  have entered : t'.Entered code.instructions :=
    frame.describes.agrees.entered (frame.final ▸ yields.entered)
  have callee := Program.means_method yields.fresh yields.decls earlierMethods opens name
  have known : (t.calleeOf? name).isSome = true := by
    rcases callee with ⟨_, _, _, _, _, callee⟩ | ⟨_, callee⟩ <;> simp [callee, means]
  obtain ⟨id, levels, t2, t3, inFront, passed, inBack, found, further, pass, last, rfl, calls⟩ :=
    (frame.statements.accounts (Stmt.Compiles.accounts _)).passed earlier name _ later call known
  have isMethod : (t.entity id).kind = .method := by
    by_contra other
    simp [calleeOf?_eq found, callee?, other] at known
  have own (means : Program.meansOwn before m name = true) : t'.IsMethod id := by
    rcases callee with ⟨_, _, _, _, _, callee⟩ | ⟨other, _⟩
    · rw [← widens.calleeOf?, calleeOf?_eq (by rw [widens.lookup]; exact found)] at callee
      exact (isMethod_of_callee typed.based callee).1
    · rw [other] at means
      cases means
  -- The code of the method falls into what comes before the arguments, they and the rest.
  obtain ⟨i, rest, isRest⟩ : ∃ i rest, (ofEntity id (t'.entity id)).result.callItems id ++
      (inBack ++ CodeBuffer.finishItems v.returns) = i :: rest := by
    refine exists_cons_of_ne_nil ?_
    unfold CodeBuffer.finishItems
    split <;> simp
  obtain ⟨head, split, headCalls⟩ := exists_methodItems_append
    (v.table.entity v.method).parameterCount v.slots.length inFront
    (passed ++ (ofEntity id (t.entity id)).result.callItems id ++ inBack) v.returns
  have isTail : passed ++ (ofEntity id (t.entity id)).result.callItems id ++ inBack ++
      CodeBuffer.finishItems v.returns = passed ++ i :: rest := by
    simp [← isRest, widens.entity]
  rw [isTail, ← append_assoc, ← append_assoc] at split
  have callsBefore : Items.calls (head ++ passed) = earlier.filterMap t'.target? := by
    rw [widens.target?, ← calls frame.standing.wellTyped.based, calls_append, headCalls,
      calls_append]
  have near := frame.near
  have located := at_flatten 0 front (head ++ (passed ++ i :: rest)) behind
  rw [split] at same near
  rw [← same, Nat.zero_add, ← CodeBuffer.instructions_eq yields.bytes] at located
  obtain ⟨nearHead, nearRest⟩ := farCount_append_eq_zero.mp near
  have nearBoth : farCount (size front.flatten) (head ++ passed) = 0 :=
    farCount_append_eq_zero.mpr ⟨nearHead, (farCount_append_eq_zero.mp nearRest).1⟩
  have arrive := pass.arrive
    (by rw [CodeBuffer.instructions_eq yields.bytes]; exact pairwise_instructions 0 _)
    (frame.describes.addressable frame.sound typed) entered (further.standing frame.standing) last
    (by rw [further.entity]; exact isMethod)
    (by rw [append_assoc, isRest]; exact located.right)
    (by rw [append_assoc, isRest]; exact nearRest)
  obtain ⟨first, isFirst, starts⟩ :=
    head?_instructions (size front.flatten + size head) passed i
  refine ⟨t, t', id, Items.instructions (Items.size front.flatten) head, _, first, _,
    instructions (size front.flatten + size head + size passed + i.size) rest,
    ⟨globals, front, t1, yields.decls, earlierMethods, opens⟩, widens,
    by rw [widens.lookup]; exact found, by rw [widens.entity]; exact isMethod, own, ?_, ?_, isFirst,
    by rw [starts]; exact arrive⟩
  · simp [getElem?_segments, same, ← frame.length, instructions_append, instructions]
  · have natural : ∀ a ∈ Items.calls (head ++ passed), ∃ n : Nat, a = n := by
      rw [callsBefore]
      intro a member
      obtain ⟨u, _, target⟩ := mem_filterMap.mp member
      obtain ⟨_ | adr, callee, target⟩ := Option.bind_eq_some_iff.mp target
      · cases target
      · cases target
        obtain ⟨id, _, callee⟩ := Option.bind_eq_some_iff.mp callee
        obtain ⟨own, rfl⟩ := isMethod_of_callee typed.based callee
        obtain ⟨n, _, _, begins, _⟩ := entered id own
        exact ⟨n, begins⟩
    rw [← instructions_append, callees_instructions nearBoth natural, callsBefore]

end Syntax

/-- In a text without problems, the arguments of a call in the body of a method arrive as they are
written. They are as many as the parameters and assignable to them. The code in front of the call
evaluates them from left to right, and then they are the first variables of the method. It is the code
behind the calls that the uses before it make. -/
theorem Compilation.run_arguments {limits : Limits} {source : List Char} {code : CodeBuffer}
    {p : Program} (accepted : Compilation.run limits source = .ok ⟨code, []⟩)
    (tree : p.IsTreeOf source) :
    ∃ segments : List (List Instruction), code.instructions = segments.flatten ∧
      segments.length = p.methods.length ∧
      ∀ before m earlier name fixed extra later, before ++ [m] <+: p.methods →
        m.uses = earlier ++ ⟨.mk name [], some (.mk fixed extra)⟩ :: later →
        p.meansMethod before m name = true →
        ∃ (t₀ t : SymbolTable) (id : EntityId) (front passed : List Instruction)
          (first next : Instruction) (back : List Instruction),
          p.BodyTable limits.clamped before m t₀ ∧ t₀.Widens t ∧ t.lookup? name = some id ∧
          (t.entity id).kind = .method ∧ (Program.meansOwn before m name = true → t.IsMethod id) ∧
          segments[before.length]? = some (front ++ passed ++ next :: back) ∧
          (front ++ passed).filterMap Instruction.callee? =
            (earlier.filterMap t.target?).map Int.toNat ∧
          (passed ++ [next]).head? = some first ∧
          Arrive code.instructions t id fixed extra first.addr next.addr := by
  obtain ⟨_, _, rfl, _, _, _, segments, yields, _⟩ := Compilation.yields_of_accepted accepted
  obtain rfl := tree.unique yields.tree
  refine ⟨Items.segments 0 segments, ?_, ?_,
    fun before m earlier name fixed extra later inside call means =>
      yields.arguments inside call means⟩
  · exact yields.flatten_segments
  · exact yields.hasCode.length

/-- A program with a call that passes a number and two characters to be collected. -/
def collectedSource : List Char :=
  "program P \x7b void f(int n, char c...) \x7b \x7d void main() \x7b f(1 # 2 'a', 'b'); \x7d \x7d".toList

def collectedArguments : Option VarArguments :=
  some (.mk 2 [.mk false (.mk (.character 97) []) [], .mk false (.mk (.character 98) []) []])

def collectedNumber : Expr := .mk false (.mk (.number 1) []) []

def collectedProgram : Program :=
  ⟨"P", [], [
    ⟨none, "f", some ⟨⟨⟨"int", false⟩, "n"⟩, [⟨⟨"char", false⟩, "c"⟩], true⟩, [], []⟩,
    ⟨none, "main", none, [], [.call (.mk "f" []) (.mk [collectedNumber] collectedArguments)]⟩]⟩

/-- The method finds the number and a reference to the array of the characters. -/
theorem Compilation.run_arguments_collected : ∃ (code : CodeBuffer) (start adr : Nat)
    (callee : Machine) (free : Nat), Compilation.run .supported collectedSource = .ok ⟨code, []⟩ ∧
      collectedProgram.IsTreeOf collectedSource ∧
      callee.visible = [1, 1] ++ List.replicate free 0 ∧
      Reaches code.instructions
        (.running start (World.machine ⟨[], [], []⟩ (fun _ => []) {} []))
        (.running adr (World.machine ⟨[], [some [97, 98]], []⟩ (fun _ => []) callee [])) := by
  obtain ⟨code, accepted⟩ :=
    Compilation.accepted_of_diagnostics .supported collectedSource (by decide +kernel)
  have tree : collectedProgram.IsTreeOf collectedSource := by decide +kernel
  obtain ⟨segments, _, _, calls⟩ := Compilation.run_arguments accepted tree
  obtain ⟨t₀, t, id, front, passed, first, next, back, _, _, _, _, own, _, _, _, arrive⟩ :=
    calls (collectedProgram.methods.take 1) ⟨none, "main", none, [], _⟩ [] "f" [collectedNumber]
      collectedArguments [] ⟨[], rfl⟩ rfl (by decide)
  obtain ⟨_, elem, collects, _⟩ := arrive.collected 2 _ rfl
  have done : (Arguments.mk [collectedNumber] collectedArguments).run t (fun _ _ _ => none) [] id
      ⟨[], [], []⟩ = some ([1, 1], ⟨[], [some [97, 98]], []⟩) := by
    have stored (v : Int32) (byte : v &&& 0xff = v) : storedAs elem v = v := by
      simp [storedAs, byte]
    have literal (n : Int32) (rest : List Expr) (f : Factor)
        (isLiteral : f.run t (fun _ _ _ => none) [] = pure n) :
        Expr.runAll t (fun _ _ _ => none) [] (.mk false (.mk f []) [] :: rest) = (n :: ·) <$>
          Expr.runAll t (fun _ _ _ => none) [] rest := by
      simp [Expr.runAll, Expr.run, Term.run, Factor.runChain, Term.runChain, isLiteral]
    have numbers : Expr.runAll t (fun _ _ _ => none) [] [collectedNumber] = pure [1] := by
      rw [collectedNumber, literal 1 [] _ (by rw [Factor.run]), Expr.runAll]
      rfl
    rw [Arguments.run, numbers, pure_bind, collects]
    simp only [collectedArguments, VarArguments.run]
    rw [literal 97 _ _ (by rw [Factor.run]), literal 98 _ _ (by rw [Factor.run]), Expr.runAll]
    simp only [map_pure, pure_bind, List.map_cons, List.map_nil, stored 97 (by decide), stored 98 (by decide)]
    rfl
  obtain ⟨_, runs⟩ := arrive.enters (own (by decide)) (fun _ _ _ => none)
    (fun _ _ _ _ _ _ impossible => by cases impossible) [] _ _ _ done
  obtain ⟨callee, free, visible, _, run⟩ := runs (fun _ => []) {} [] rfl
  exact ⟨code, _, _, callee, free, accepted, tree, visible, run⟩

end MicroJava

import MicroJava.Proofs.Storage.Declaration
import MicroJava.Proofs.Verification.Program

/-! # Storage of a program

In the code of a program without problems, the operands of all instructions that access storage are
in range, and they are the places of the variables and fields among the declarations. The
instructions stand for the accesses in the text, one by one and in order.
-/

namespace MicroJava

open Syntax SymbolTable Items List Instruction

/-! ## Ranges of operands -/

/-- Whether operands are below the number of local variables and of global variables, and fields
below a bound for all classes. -/
def Storage.Within (locals globals fields : Nat) : Storage → Prop
  | load slot | store slot => 0 ≤ slot ∧ slot < locals
  | inc slot amount => (0 ≤ slot ∧ slot < locals) ∧ (amount = 1 ∨ amount = -1)
  | getStatic slot | putStatic slot => 0 ≤ slot ∧ slot < globals
  | getField index | putField index => 0 ≤ index ∧ index < fields
  | new count => 0 ≤ count ∧ count ≤ fields

theorem Storage.Within.fits {locals globals fields : Nat} {s : Storage}
    (within : s.Within locals globals fields) (fewLocals : locals ≤ Limits.supported.locals)
    (fewGlobals : globals ≤ Limits.supported.globals)
    (fewFields : fields ≤ Limits.supported.fields) : s.Fits := by
  simp only [Limits.supported] at fewLocals fewGlobals fewFields
  cases s <;>
    simp only [Storage.Within, Storage.Fits, Width.Fits, Width.bytes, Nat.pow_eq] at within ⊢ <;>
    omega

namespace Location

/-- Whether a location is below the number of local variables or of global variables, or a field
below a bound for all classes. -/
def Within (locals globals fields : Nat) : Location → Prop
  | localVar slot => slot < locals
  | staticVar slot => slot < globals
  | field index => index < fields

variable {locals globals fields : Nat} {location : Location}
  (within : location.Within locals globals fields)

include within

theorem Within.reads : ∀ s ∈ location.reads, s.Within locals globals fields := by
  cases location <;> simpa [Location.reads, Storage.Within, Within] using within

theorem Within.writes : ∀ s ∈ location.writes, s.Within locals globals fields := by
  cases location <;> simpa [Location.writes, Storage.Within, Within] using within

theorem Within.steps (up : Bool) :
    ∀ s ∈ location.steps (if up then 1 else -1), s.Within locals globals fields := by
  cases location with
  | localVar slot =>
    have slots : slot < locals := within
    cases up <;> simp [Location.steps, Storage.Within, slots]
  | staticVar | field =>
    intro s member
    exact (mem_append.mp member).elim (within.reads s) (within.writes s)

end Location

section

variable {v : Surroundings} {fields : Nat}
  (bound : ∀ a, (v.table.fieldNames a).length ≤ fields)

include bound

theorem Syntax.Designator.Denotes.within {d : Designator} {location? : Option Location}
    (denotes : d.Denotes v location?) :
    ∀ location ∈ location?, location.Within v.locals.length v.globals.length fields := by
  rintro location rfl
  cases denotes with
  | localVar declared | staticVar _ declared => exact (List.getElem?_eq_some_iff.mp declared).1
  | @field _ _ a _ _ _ _ declared =>
    exact Nat.lt_of_lt_of_le (List.getElem?_eq_some_iff.mp declared).1 (bound a)

theorem Syntax.Access.Performs.within {access : Access} {storages : List Storage}
    (performs : access.Performs v storages) :
    ∀ s ∈ storages, s.Within v.locals.length v.globals.length fields := by
  cases performs with
  | @read _ location? denotes =>
    cases location? with
    | none => simp
    | some location => exact (denotes.within bound location rfl).reads
  | @write _ location? denotes =>
    cases location? with
    | none => simp
    | some location => exact (denotes.within bound location rfl).writes
  | @step _ location? up denotes =>
    cases location? with
    | none => simp
    | some location => exact (denotes.within bound location rfl).steps up
  | @create _ id =>
    have count := bound (v.table.entity id).type
    simp only [mem_singleton, forall_eq, Storage.Within]
    omega

theorem Traces.within {accesses : List Access} {items : List Item}
    (traces : Traces v accesses items) :
    ∀ s ∈ storage items, s.Within v.locals.length v.globals.length fields := by
  obtain ⟨steps, performs, storage⟩ := traces
  rw [storage]
  clear storage
  induction performs with
  | nil => simp
  | cons first _ ih =>
    intro s member
    rw [flatten_cons, mem_append] at member
    exact member.elim (first.within bound s) (ih s)

end

namespace Syntax

variable {p : Program} {limits : Limits} {source : List Char} {globals final : SymbolTable}
  {segments : List (List Item)} {code : CodeBuffer} {before : List Method} {m : Method}

@[simp] theorem storage_methodItems (parameterCount varCount : Nat) (body : List Item)
    (type : TypeId) : storage (methodItems parameterCount varCount body type) = storage body := by
  have finish : storage (CodeBuffer.finishItems type) = [] := by
    unfold CodeBuffer.finishItems
    split <;> rfl
  simp [methodItems, finish, Opcode.storage?, Opcode.loadSlot?, Opcode.storeSlot?]

/-- A method of a program with its items, whose storage is that of its accesses. -/
structure Program.HasStorage (p : Program) (limits : Limits) (segments : List (List Item))
    (before : List Method) (m : Method) (front : List (List Item)) (body : List Item)
    (t t' : SymbolTable) : Prop where
  length : front.length = before.length
  code : ∃ type back,
    segments = front ++ methodItems m.parameterCount m.names.length body type :: back
  table : p.BodyTable limits before m t
  widens : t.Widens t'
  classes : t'.HasClasses p.decls
  fieldCount : ∀ a, (t'.fieldNames a).length ≤ limits.fields
  capacity : m.names.length ≤ limits.locals
  distinct : m.names.Nodup
  traces : Traces ⟨m.names, p.varNames, t'⟩ m.accesses body

/-- The global variables are counted, and their names differ. -/
theorem Program.Yields.countsGlobals (yields : p.Yields limits source globals final segments code) :
    globals.varCount = p.varNames.length ∧ p.varNames.Nodup := by
  obtain ⟨orderly, varNames⟩ :=
    yields.decls.collects collects_gains (·.gains) (p.start_orderly yields.fresh)
  rw [Program.start_varNames yields.fresh] at varNames
  exact orderly.varCount (by simpa [Program.varNames] using varNames)

theorem Program.Yields.hasStorage (yields : p.Yields limits source globals final segments code)
    (inside : before ++ [m] <+: p.methods) :
    ∃ front body t t', p.HasStorage limits.clamped segments before m front body t t' := by
  obtain ⟨front, items, back, _, t1, t2, same, earlier, compiled, _⟩ := yields.split inside
  have global := yields.toCompiles.global
  have global1 := (earlier.global global).1
  obtain ⟨t, t', body, opens, sequence, capacity, rfl, _⟩ := compiled.body
  have widens := (sequence.contained (Stmt.Compiles.contained _)).widens
  obtain ⟨orderly, varNames⟩ := Program.varNames_body yields.fresh yields.decls earlier opens
  obtain ⟨count, distinct⟩ := orderly.varCount varNames
  rw [count] at same capacity
  rw [opens.parameterCount] at same
  have wellTyped : t'.WellTyped limits.clamped.fields :=
    widens.preserves (fun _ elem wellTyped => wellTyped.array elem)
      (opens.wellTyped global1.wellTyped)
  have onlyVars : t'.OnlyVars :=
    widens.preserves hereditary_onlyVars.array (opens.onlyVars global1.wellTyped)
  have known : Surroundings.Known ⟨m.names, p.varNames, t'⟩ := by
    refine Surroundings.known wellTyped (widens.preserves hereditary_orderly.array orderly)
      (widens.varNames.trans varNames) fun s outer scopes id member => ?_
    change t'.scopes = s :: outer at scopes
    exact (onlyVars.isVar id (by simpa [declared, scopes, Scope.declarations] using member)).kind
  have classes : globals.HasClasses p.decls := by
    simpa using yields.decls.hasClasses p.start_hasClasses (p.start_wellTyped _)
      (p.start_orderly yields.fresh)
  have persists := (earlier.persists.trans opens.persists).trans widens.persists
  have adds : globals.AddsNoClass t' := widens.preserves (robust_addsNoClass globals).array
    (opens.addsNoClass (earlier.addsNoClass (.refl globals)))
  refine ⟨front, body, t, t', earlier.length, ⟨_, back, same⟩,
    ⟨globals, front, t1, yields.decls, earlier, opens⟩, widens,
    classes.grow global.wellTyped persists adds, fun a => ?_, capacity, distinct,
    (sequence.traces (Stmt.Compiles.traces known _)).2 .refl⟩
  rw [fieldNames, length_map]
  exact wellTyped.fieldCount a

theorem Method.parameterCount_le_names (m : Method) : m.parameterCount ≤ m.names.length := by
  simp [Method.parameterCount, Method.names]

section

variable {front : List (List Item)} {body : List Item} {t t' : SymbolTable}
  (stored : p.HasStorage limits.clamped segments before m front body t t')

include stored

theorem Program.HasStorage.names_le : m.names.length ≤ 127 :=
  Nat.le_trans stored.capacity (Nat.min_le_right ..)

theorem Program.HasStorage.within :
    ∀ s ∈ storage body, s.Within m.names.length p.varNames.length 32767 :=
  stored.traces.within fun a => Nat.le_trans (stored.fieldCount a) (Nat.min_le_right ..)

/-- The code of the method. -/
theorem Program.HasStorage.segment {segment : List Instruction}
    (found : (Items.segments 0 segments)[before.length]? = some segment) :
    ∃ type, instructions (size front.flatten)
      (methodItems m.parameterCount m.names.length body type) = segment := by
  obtain ⟨type, back, same⟩ := stored.code
  refine ⟨type, ?_⟩
  simpa [getElem?_segments, same, ← stored.length] using found

theorem Program.HasStorage.storage_instructions (fewGlobals : p.varNames.length ≤ 32767) (adr : Nat)
    (type : TypeId) :
    (Items.instructions adr (methodItems m.parameterCount m.names.length body type)).filterMap
      storage? = Items.storage body := by
  rw [Items.storage_instructions, storage_methodItems]
  rw [storage_methodItems]
  intro s member
  exact (stored.within s member).fits stored.names_le fewGlobals (Nat.le_refl _)

/-- The operands of `enter` can be read back. -/
theorem Program.HasStorage.operands_enter (adr : Nat) :
    ((Item.plain .enter [m.parameterCount, m.names.length] ⟨rfl, rfl⟩).instruction adr).operands =
      [(m.parameterCount : Int), (m.names.length : Int)] := by
  refine Item.instruction_operands_of_fits adr _ ?_
  simp only [Item.opcode, Item.operands, Opcode.widths, zip_cons_cons, zip_nil_right,
    mem_cons, not_mem_nil, or_false]
  rintro pair (rfl | rfl)
  · exact Frame.fits_byte (Nat.le_trans m.parameterCount_le_names stored.names_le)
  · exact Frame.fits_byte stored.names_le

end

end Syntax

/-- In a text without problems, the instructions of each method that access storage are those of the
accesses in its statements, in order. Local and global variables are at their places among the
declarations, and a field at its place in the class of the designator that it is selected from. All
operands are in range, and names in one scope differ. -/
theorem Compilation.run_storage {limits : Limits} {source : List Char} {code : CodeBuffer}
    {p : Program} (accepted : Compilation.run limits source = .ok ⟨code, []⟩)
    (tree : p.IsTreeOf source) :
    code.dataSize = p.varNames.length ∧ p.varNames.length ≤ 32767 ∧ p.varNames.Nodup ∧
    ∃ segments : List (List Instruction),
      code.instructions = segments.flatten ∧ segments.length = p.methods.length ∧
      ∀ before m segment, before ++ [m] <+: p.methods → segments[before.length]? = some segment →
        m.parameterCount ≤ m.names.length ∧ m.names.length ≤ 127 ∧ m.names.Nodup ∧
        (∃ enter rest, segment = enter :: rest ∧ enter.op? = some .enter ∧
          enter.operands = [(m.parameterCount : Int), (m.names.length : Int)]) ∧
        (∀ s ∈ segment.filterMap storage?,
          s.Within m.names.length p.varNames.length 32767) ∧
        ∃ t t', p.BodyTable limits.clamped before m t ∧ t.Widens t' ∧ t'.HasClasses p.decls ∧
          ∃ steps, Forall₂ (Access.Performs ⟨m.names, p.varNames, t'⟩) m.accesses steps ∧
            segment.filterMap storage? = steps.flatten := by
  obtain ⟨_, _, rfl, _, _, _, segments, yields, _⟩ := Compilation.yields_of_accepted accepted
  obtain rfl := tree.unique yields.tree
  obtain ⟨count, distinct⟩ := yields.countsGlobals
  have fewGlobals : p.varNames.length ≤ 32767 :=
    count ▸ Nat.le_trans yields.capacity (Nat.min_le_right ..)
  refine ⟨yields.dataSize.trans count, fewGlobals, distinct, Items.segments 0 segments, ?_, ?_,
    fun before m segment inside found => ?_⟩
  · exact yields.flatten_segments
  · exact yields.hasCode.length
  · obtain ⟨front, body, t, t', stored⟩ := yields.hasStorage inside
    obtain ⟨type, rfl⟩ := stored.segment found
    rw [stored.storage_instructions fewGlobals]
    exact ⟨m.parameterCount_le_names, stored.names_le, stored.distinct,
      ⟨_, _, rfl, Item.instruction_op? _ _, stored.operands_enter _⟩, stored.within, t, t',
      stored.table, stored.widens, stored.classes, stored.traces⟩

/-- A program that accesses variables and fields of every sort. -/
def countingSource : List Char :=
  "program P int n, g; class C \x7b int a, b; \x7d \x7b void main() C c; int i; \x7b c = new C; c.b = g; i++; g = i; \x7d \x7d".toList

def countingMethod : Method :=
  ⟨none, "main", none, [⟨⟨"C", false⟩, "c", []⟩, ⟨⟨"int", false⟩, "i", []⟩],
    [.assign (.mk "c" []) (.mk false (.mk (.object "C") []) []),
      .assign (.mk "c" [.field "b"]) (.mk false (.mk (.value (.mk "g" [])) []) []),
      .step (.mk "i" []) true,
      .assign (.mk "g" []) (.mk false (.mk (.value (.mk "i" [])) []) [])]⟩

def countingProgram : Program :=
  ⟨"P", [.vars ⟨⟨"int", false⟩, "n", ["g"]⟩,
    .classDecl "C" [⟨⟨"int", false⟩, "a", ["b"]⟩]], [countingMethod]⟩

theorem Compilation.run_storage_counting : ∃ code,
    Compilation.run .supported countingSource = .ok ⟨code, []⟩ ∧
    countingProgram.IsTreeOf countingSource ∧ code.dataSize = 2 ∧
    (∀ s ∈ code.instructions.filterMap storage?, s.Within 2 2 32767) ∧
    ∃ t steps, t.HasClasses countingProgram.decls ∧
      Forall₂ (Access.Performs ⟨["c", "i"], ["n", "g"], t⟩) [.create "C", .write (.mk "c" []),
        .read (.mk "c" []), .read (.mk "g" []), .write (.mk "c" [.field "b"]),
        .step (.mk "i" []) true, .read (.mk "i" []), .write (.mk "g" [])] steps ∧
      code.instructions.filterMap storage? = steps.flatten := by
  obtain ⟨code, accepted⟩ :=
    Compilation.accepted_of_diagnostics .supported countingSource (by decide +kernel)
  have tree : countingProgram.IsTreeOf countingSource := by decide +kernel
  obtain ⟨dataSize, _, _, segments, all, length, methods⟩ :=
    Compilation.run_storage accepted tree
  obtain ⟨segment, rfl⟩ : ∃ segment, segments = [segment] := length_eq_one_iff.mp length
  obtain ⟨_, _, _, _, within, _, t, _, _, classes, steps, performs, storage⟩ :=
    methods [] countingMethod segment ⟨[], rfl⟩ rfl
  refine ⟨code, accepted, tree, dataSize, ?_⟩
  rw [all, flatten_singleton]
  exact ⟨within, t, steps, classes, performs, storage⟩

end MicroJava

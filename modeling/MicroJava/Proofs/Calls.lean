import MicroJava.Proofs.MethodCode
import MicroJava.Proofs.Syntax.Unambiguous
import MicroJava.Proofs.Translation.Callees

/-! # Names of methods and calls

In a program without problems, the name of a method is followed by arguments that were matched
against its parameters, or by a period. The calls in the code of a method are, one by one, the places
where its statements name methods of the program. So every call has its arguments unless a field is
selected from the name of a method, and there the method is called without any.
-/

namespace MicroJava

open Syntax Items List Item

/-- The address that an instruction calls. -/
def Instruction.callee? (i : Instruction) : Option Nat :=
  if i.op? = some .call then i.target? else none

/-- The calls among items are the calls among their instructions. -/
theorem Items.callees_instructions {adr : Nat} {items : List Item} (near : farCount adr items = 0)
    (targets : ∀ a ∈ calls items, ∃ n : Nat, a = n) :
    (instructions adr items).filterMap Instruction.callee? = (calls items).map Int.toNat := by
  induction items generalizing adr with
  | nil => rfl
  | cons i items ih =>
    obtain ⟨nearFirst, nearRest⟩ := farCount_cons_eq_zero.mp near
    have rest := ih nearRest fun a member => targets a (by
      simp only [calls, filterMap_cons]
      split
      · exact member
      · exact mem_cons_of_mem _ member)
    simp only [instructions, calls, filterMap_cons] at rest ⊢
    cases i with
    | call target =>
      obtain ⟨n, rfl⟩ := targets target (by simp [calls, callee?])
      have callee : ((call n).instruction adr).callee? = some n := by
        simp only [Instruction.callee?, instruction_op?, opcode, if_true]
        exact instruction_target? _ _ rfl nearFirst
      simp only [callee, callee?, rest, map_cons, Int.toNat_natCast]
    | plain op operands proper =>
      have other : ((plain op operands proper).instruction adr).callee? = none := by
        have notCall : op ≠ .call := by
          rintro rfl
          exact absurd proper.2 (by decide)
        simp [Instruction.callee?, opcode, notCall]
      simp only [other, callee?, rest]
    | jump when? target =>
      have other : ((jump when? target).instruction adr).callee? = none := by
        have notCall : jumpOp when? ≠ .call := by
          cases when? with
          | none => decide
          | some comparison => cases comparison <;> decide
        simp [Instruction.callee?, opcode, notCall]
      simp only [other, callee?, rest]

private theorem forall₂_filterMap_filter {α β : Type} {r : β → α → Prop} {f : α → Option β}
    {p : α → Bool}
    {all : List α}
    (each : ∀ a ∈ all, (p a = true ∧ ∃ b, f a = some b ∧ r b a) ∨ (p a = false ∧ f a = none)) :
    Forall₂ r (all.filterMap f) (all.filter p) := by
  induction all with
  | nil => exact .nil
  | cons a all ih =>
    have rest := ih fun b member => each b (mem_cons_of_mem _ member)
    rcases each a mem_cons_self with ⟨holds, b, found, related⟩ | ⟨fails, none⟩
    · simpa [holds, found] using Forall₂.cons related rest
    · simpa [fails, none] using rest

namespace Syntax

/-- Whether the body of a method of a program is compiled in a table, when the methods before it are
given. -/
def Program.BodyTable (p : Program) (limits : Limits) (before : List Method) (m : Method)
    (t : SymbolTable) : Prop :=
  ∃ globals front t₁, Decl.DeclareAll limits p.start p.decls globals ∧
    Method.CompileAll limits globals 0 before front t₁ ∧ m.Opens t₁ (Items.size front.flatten) t

/-- Whether the code of the method with a name begins at an address. -/
def Program.BeginsAt (p : Program) (code : List (List Instruction)) (name : String) (adr : Nat) :
    Prop :=
  ∃ (j : Nat) (callee : Method) (segment : List Instruction) (first : Instruction),
    p.methods[j]? = some callee ∧ callee.name = name ∧ code[j]? = some segment ∧
    segment.head? = some first ∧ first.addr = adr

theorem Use.Accepted.isCall_or {t : SymbolTable} {u : Use} (accepted : u.Accepted t) :
    u.IsCall ∨ u.IsSelected := by
  cases accepted with
  | called => exact .inl (isCall_bare _ _)
  | selected => exact .inr (isSelected_field _ _ _ _)

variable {p : Program} {limits : Limits} {source : List Char} {globals final : SymbolTable}
  {segments : List (List Item)} {code : CodeBuffer} {before : List Method} {m : Method}

/-- A method of a program with the items that are its code and the table in which its body is
compiled. -/
structure Program.HasBody (limits : Limits) (globals : SymbolTable) (segments : List (List Item))
    (before : List Method) (m : Method) (front : List (List Item)) (body : List Item)
    (t t' : SymbolTable) : Prop where
  length : front.length = before.length
  opens : ∃ t₁, Method.CompileAll limits globals 0 before front t₁ ∧
    m.Opens t₁ (Items.size front.flatten) t
  based : t.Based
  accounts : Accounts t m.uses body t'
  code : ∃ parameterCount varCount type back,
    segments = front ++ methodItems parameterCount varCount body type :: back ∧
    Items.farCount (Items.size front.flatten) (methodItems parameterCount varCount body type) = 0

section

variable (yields : p.Yields limits source globals final segments code)

include yields

theorem Program.Yields.hasBody (inside : before ++ [m] <+: p.methods) :
    ∃ front body t t', Program.HasBody limits.clamped globals segments before m front body t t' := by
  obtain ⟨front, items, back, _, t1, t2, same, earlier, compiled, _⟩ := yields.split inside
  obtain ⟨t, t', body, opens, accounts, ⟨parameterCount, varCount, type, rfl⟩, near, _⟩ :=
    compiled.opens
  have based : globals.Based := yields.decls.preserves
    (fun _ _ _ declares based => based.trans declares.persists) p.start_based
  exact ⟨front, body, t, t', earlier.length, ⟨t1, earlier, opens⟩,
    (based.trans earlier.persists).trans opens.persists, accounts,
    parameterCount, varCount, type, back, same, near⟩

/-- The name of a method is called, or a field is selected from it. -/
theorem Program.Yields.accepted {u : Use} (names : p.NamesMethod before m u) :
    ∃ t, p.BodyTable limits.clamped before m t ∧ u.Accepted t := by
  obtain ⟨front, body, t, t', method⟩ := yields.hasBody names.method
  obtain ⟨t1, earlier, opens⟩ := method.opens
  refine ⟨t, ⟨globals, front, t1, yields.decls, earlier, opens⟩,
    method.accounts.accepted u names.inside ?_⟩
  rcases Program.means_method yields.fresh yields.decls earlier opens u.name with
    ⟨_, _, _, _, _, callee⟩ | ⟨_, callee⟩
  · simp [callee]
  · simp [callee, names.means]

/-- The code of a method begins behind that of the methods before it. -/
theorem Program.Yields.beginsAt {j : Nat} (found : p.methods[j]? = some m) :
    p.BeginsAt (Items.segments 0 segments) m.name (Items.size (segments.take j).flatten) := by
  have inside : p.methods.take j ++ [m] <+: p.methods := by
    obtain ⟨early, rfl⟩ := List.getElem?_eq_some_iff.mp found
    rw [take_append_getElem]
    exact take_prefix _ _
  obtain ⟨front, body, t, t', method⟩ := yields.hasBody inside
  obtain ⟨parameterCount, varCount, type, back, rfl, _⟩ := method.code
  have length : front.length = j := by
    have early := (List.getElem?_eq_some_iff.mp found).1
    rw [method.length, length_take]
    omega
  subst length
  rw [take_left]
  refine ⟨front.length, m, instructions (size front.flatten)
    (methodItems parameterCount varCount body type), _, found, rfl, ?_, rfl, rfl⟩
  simp [getElem?_segments]

end

private theorem calls_methodItems (parameterCount varCount : Nat) (body : List Item)
    (type : TypeId) :
    calls (methodItems parameterCount varCount body type) = calls body := by
  have finish := (plain_finishItems type).calls
  have enter : calls [.plain .enter [parameterCount, varCount] ⟨rfl, rfl⟩] = [] := rfl
  rw [methodItems, ← singleton_append, calls_append, calls_append, finish, enter]
  simp

/-- The calls in the code of a method are the places where its body names methods of the program. -/
theorem Program.Yields.calls (yields : p.Yields limits source globals final segments code)
    (inside : before ++ [m] <+: p.methods) {segment : List Instruction}
    (isSegment : (Items.segments 0 segments)[before.length]? = some segment) :
    Forall₂ (fun adr (u : Use) => p.BeginsAt (Items.segments 0 segments) u.name adr)
      (segment.filterMap Instruction.callee?)
      (m.uses.filter fun u => Program.meansOwn before m u.name) := by
  obtain ⟨front, body, t, t', method⟩ := yields.hasBody inside
  obtain ⟨t1, earlier, opens⟩ := method.opens
  obtain ⟨parameterCount, varCount, type, back, same, near⟩ := method.code
  have isSegment : Items.instructions (Items.size front.flatten)
      (methodItems parameterCount varCount body type) = segment := by
    simpa [Items.getElem?_segments, same, ← method.length] using isSegment
  have means (u : Use) : (Program.meansOwn before m u.name = true ∧ ∃ adr : Nat,
      t.target? u = some (adr : Int) ∧ p.BeginsAt (Items.segments 0 segments) u.name adr) ∨
      (Program.meansOwn before m u.name = false ∧ t.target? u = none) := by
    rcases Program.means_method yields.fresh yields.decls earlier opens u.name with
      ⟨own, j, callee, found, named, isCallee⟩ | ⟨other, isCallee⟩
    · have early : j ≤ front.length := by
        have := (List.getElem?_eq_some_iff.mp found).1
        simp only [length_append, length_singleton] at this
        rw [method.length]
        omega
      have isMethod : p.methods[j]? = some callee := by
        obtain ⟨after, methods⟩ := inside
        rwa [← methods, getElem?_append_left (List.getElem?_eq_some_iff.mp found).1]
      have begins := yields.beginsAt isMethod
      rw [named, same, take_append_of_le_length early] at begins
      rw [← same] at begins
      exact .inl ⟨own, _, by simp [SymbolTable.target?, isCallee, Callee.adr?], begins⟩
    · refine .inr ⟨other, ?_⟩
      rw [SymbolTable.target?, isCallee]
      split <;> rfl
  have calls : Items.calls (methodItems parameterCount varCount body type) =
      m.uses.filterMap t.target? := by
    rw [calls_methodItems, method.accounts.calls method.based]
  have natural : ∀ a ∈ m.uses.filterMap t.target?, ∃ n : Nat, a = n := by
    intro a member
    obtain ⟨u, _, target⟩ := mem_filterMap.mp member
    rcases means u with ⟨_, adr, isTarget, _⟩ | ⟨_, none⟩
    · exact ⟨adr, Option.some.inj (target.symm.trans isTarget)⟩
    · simp [none] at target
  rw [← isSegment, Items.callees_instructions near (calls ▸ natural), calls, map_filterMap]
  refine forall₂_filterMap_filter fun u _ => ?_
  rcases means u with ⟨own, adr, target, begins⟩ | ⟨other, none⟩
  · exact .inl ⟨own, adr, by simp [target], begins⟩
  · exact .inr ⟨other, by simp [none]⟩

end Syntax

/-- In a text without problems, the name of a method in a method body is followed by arguments that
fit its parameters or by a period. So names of methods are always called if and only if none of them
is followed by a period. The calls in the code of a method are, one by one, the places where its body
names methods of the program. -/
theorem Compilation.run_calls {limits : Limits} {source : List Char} {code : CodeBuffer}
    {p : Program} (accepted : Compilation.run limits source = .ok ⟨code, []⟩)
    (tree : p.IsTreeOf source) :
    ((∀ before m u, p.NamesMethod before m u → u.IsCall) ↔
      ∀ before m u, p.NamesMethod before m u → ¬ u.IsSelected) ∧
    (∀ before m u, p.NamesMethod before m u → u.lexemes <:+: p.lexemes ∧
      ∃ t, p.BodyTable limits.clamped before m t ∧ u.Accepted t) ∧
    ∃ segments : List (List Instruction), code.instructions = segments.flatten ∧
      segments.length = p.methods.length ∧
      ∀ before m segment, before ++ [m] <+: p.methods → segments[before.length]? = some segment →
        List.Forall₂ (fun adr (u : Use) => p.BeginsAt segments u.name adr)
          (segment.filterMap Instruction.callee?)
          (m.uses.filter fun u => Program.meansOwn before m u.name) := by
  obtain ⟨_, _, rfl, _, _, _, segments, yields, _⟩ := Compilation.yields_of_accepted accepted
  obtain rfl := tree.unique yields.tree
  refine ⟨⟨fun called before m u names => (called before m u names).not_isSelected,
    fun unselected before m u names => ?_⟩, fun before m u names => ⟨?_, yields.accepted names⟩,
    Items.segments 0 segments, ?_, ?_, fun before m segment inside => yields.calls inside⟩
  · obtain ⟨t, _, accepted⟩ := yields.accepted names
    exact accepted.isCall_or.resolve_right (unselected before m u names)
  · have member : m ∈ p.methods := names.method.subset (by simp)
    exact Method.written member u names.inside
  · exact yields.flatten_segments
  · exact yields.hasCode.length

/-- A program with a call of a method that has a parameter. -/
def calledSource : List Char :=
  "program P \x7b int f(int n) \x7b return n; \x7d void main() \x7b f(3); \x7d \x7d".toList

def calledMethod : Method :=
  ⟨some ⟨"int", false⟩, "f", some ⟨⟨⟨"int", false⟩, "n"⟩, [], false⟩, [],
    [.yield (some (.mk false (.mk (.value (.mk "n" [])) []) []))]⟩

def threeArgument : Arguments := .mk [.mk false (.mk (.number 3) []) []] none

def callingMethod : Method := ⟨none, "main", none, [], [.call (.mk "f" []) threeArgument]⟩

theorem Compilation.run_calls_three : ∃ code,
    Compilation.run .supported calledSource = .ok ⟨code, []⟩ ∧
    (⟨"P", [], [calledMethod, callingMethod]⟩ : Program).IsTreeOf calledSource ∧
    ∃ t, (⟨"P", [], [calledMethod, callingMethod]⟩ : Program).BodyTable Limits.supported.clamped
      [calledMethod] callingMethod t ∧ Use.Accepted t ⟨.mk "f" [], some threeArgument⟩ := by
  obtain ⟨code, accepted⟩ :=
    Compilation.accepted_of_diagnostics .supported calledSource (by decide +kernel)
  have tree : (⟨"P", [], [calledMethod, callingMethod]⟩ : Program).IsTreeOf calledSource := by decide +kernel
  obtain ⟨_, names, _⟩ := Compilation.run_calls accepted tree
  have named := names [calledMethod] callingMethod ⟨.mk "f" [], some threeArgument⟩
    ⟨⟨[], rfl⟩, List.mem_singleton.mpr rfl, by decide⟩
  exact ⟨code, accepted, tree, named.2⟩

/-- A program in which a field is selected from the name of a method. -/
def selectedSource : List Char :=
  "program P class C \x7b int a; \x7d \x7b C f(int n) \x7b return new C; \x7d void main() int x; \x7b x = f.a; \x7d \x7d".toList

def makingMethod : Method :=
  ⟨some ⟨"C", false⟩, "f", some ⟨⟨⟨"int", false⟩, "n"⟩, [], false⟩, [],
    [.yield (some (.mk false (.mk (.object "C") []) []))]⟩

def selectingMethod : Method :=
  ⟨none, "main", none, [⟨⟨"int", false⟩, "x", []⟩],
    [.assign (.mk "x" []) (.mk false (.mk (.value (.mk "f" [.field "a"])) []) [])]⟩

/-- There the name of a method is not called in the text. In the code it is, before any argument is
on the stack. -/
theorem Compilation.run_selected : ∃ code,
    Compilation.run .supported selectedSource = .ok ⟨code, []⟩ ∧
    code.instructions.filterMap Instruction.op? =
      [.enter, .new, .exit, .ret, .trap, .enter, .call, .getField, .store0, .exit, .ret] ∧
    ∃ (p : Program) (before : List Method) (m : Method) (u : Use), p.IsTreeOf selectedSource ∧
      p.NamesMethod before m u ∧ ¬ u.IsCall := by
  obtain ⟨code, accepted⟩ :=
    Compilation.accepted_of_diagnostics .supported selectedSource (by decide +kernel)
  have instructions : (Compilation.run .supported selectedSource).map
      (fun c => c.code.instructions.filterMap Instruction.op?) = .ok
      [.enter, .new, .exit, .ret, .trap, .enter, .call, .getField, .store0, .exit, .ret] := by
    decide +kernel
  rw [accepted] at instructions
  refine ⟨code, accepted, Except.ok.inj instructions,
    ⟨"P", [.classDecl "C" [⟨⟨"int", false⟩, "a", []⟩]], [makingMethod, selectingMethod]⟩,
    [makingMethod], selectingMethod, ⟨.mk "f" [.field "a"], none⟩, ?_, ⟨⟨[], rfl⟩, ?_, ?_⟩, ?_⟩
  · decide +kernel
  · exact .tail _ (.head _)
  · decide
  · decide

end MicroJava

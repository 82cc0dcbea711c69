import MicroJava.Proofs.ObjectText
import MicroJava.Proofs.Storage.Program

/-! # Where a program begins

A program begins with its only method that is called `main`, which has neither a result nor
parameters. Its address is stated in the object file, and the code has the instruction there that
sets up its frame. Names in other scopes may be `main` as well, but a program without such a method
is not compiled.
-/

namespace MicroJava

open List

/-- A name that is found as a method means one. -/
theorem SymbolTable.calleeOf?_of_findMethod {t : SymbolTable} {name : String}
    (found : (t.findMethod name).problems = []) : (t.calleeOf? name).isSome = true := by
  unfold findMethod at found
  split at found
  · next id isFound =>
    split at found
    · next method => simp [calleeOf?_eq isFound, callee?, method]
    · cases found
  · cases found

namespace Syntax

open SymbolTable

/-- Whether a program begins with a method: its only one that is called `main`, which has neither a
result nor parameters. -/
structure Program.HasMain (p : Program) (m : Method) : Prop where
  only : p.methods.filter (·.name == "main") = [m]
  noResult : m.result = none
  noParameters : m.parameters = none

/-! ## Methods that are called `main` -/

/-- Where no parameter is counted there is no list of parameters. -/
theorem Method.parameters_of_parameterCount {m : Method} (none : m.parameterCount = 0) :
    m.parameters = Option.none := by
  cases parameters : m.parameters with
  | none => rfl
  | some ps => simp [Method.parameterCount, parameters, Parameters.names] at none

theorem Program.HasMain.parameterCount {p : Program} {m : Method} (hasMain : p.HasMain m) :
    m.parameterCount = 0 := by
  simp [Method.parameterCount, hasMain.noParameters]

/-- A method that is called `main` has neither a result nor parameters. -/
theorem Method.Compiles.head_main {limits : Limits} {t t' : SymbolTable} {base limit : Nat}
    {m : Method} {items : List Item} (compiles : m.Compiles limits t base items t')
    (wellTyped : t.WellTyped limit) (named : m.name = "main") :
    m.result = none ∧ m.parameters = none := by
  obtain ⟨result, fresh, parameters, locals, _, main, _, _⟩ := compiles
  obtain ⟨isNone, uncounted⟩ := main named
  constructor
  · generalize m.result = name at result
    cases result with
    | void => rfl
    | type resolved =>
      obtain ⟨resolvedTyped, isData⟩ := resolved.wellTyped wellTyped
      exact absurd isNone (resolvedTyped.based.ne_none isData)
  · have counted := (Method.Opens.mk result fresh parameters locals).parameterCount
    rw [← result.same.1, uncounted] at counted
    exact Method.parameters_of_parameterCount counted.symm

/-- The names of methods differ. -/
theorem Program.Compiles.distinct {p : Program} {limits : Limits} {globals final : SymbolTable}
    {segments : List (List Item)} (compiles : p.Compiles limits globals final segments) :
    (p.methods.map (·.name)).Nodup := by
  obtain ⟨orderly, _, outermost, callees, _⟩ :=
    Program.callees_methods compiles.fresh compiles.decls compiles.methods
  have distinct := orderly.distinct_callees _ (callees ▸ mem_cons_self)
  rw [map_append, Method.map_fst_callees compiles.methods.length] at distinct
  exact nodup_reverse.mp (nodup_append.mp distinct).1

/-- Some method is called `main`: the name means a method, and no predeclared one. -/
theorem Program.Compiles.exists_main {p : Program} {limits : Limits} {globals final : SymbolTable}
    {segments : List (List Item)} (compiles : p.Compiles limits globals final segments) :
    ∃ m ∈ p.methods, m.name = "main" := by
  obtain ⟨_, _, outermost, callees, predeclared⟩ :=
    Program.callees_methods compiles.fresh compiles.decls compiles.methods
  have means := calleeOf?_of_findMethod compiles.main
  rw [calleeOf?_eq_callees, callees] at means
  rcases @Method.lookup_callees 0 segments p.methods compiles.methods.length "main" with
    ⟨none, _⟩ | ⟨j, m, isMethod, named, _⟩
  · -- Neither another declaration nor a predeclared name is a method that is called so.
    have outer := predeclared "main"
    rw [if_neg (by decide)] at outer
    simp only [findSome?_cons, lookup_append, none, lookup_hidden, Option.none_or,
      findSome?_nil] at means
    split at means
    · next declared =>
      split at declared
      · cases declared
        cases means
      · cases declared
    · cases found : outermost.lookup "main" with
      | none => simp [found] at means
      | some callee =>
        rw [found, Option.join_some] at outer
        simp [found, outer] at means
  · exact ⟨m, mem_of_getElem? isMethod, named⟩

/-! ## The entry point -/

private theorem entryAfter_of_ne {entry : Option Nat} {base : Nat} {ms : List Method}
    {segments : List (List Item)} (others : ∀ m ∈ ms, m.name ≠ "main") :
    entryAfter entry base ms segments = entry := by
  induction ms generalizing base segments with
  | nil => simp [entryAfter]
  | cons m ms ih =>
    obtain ⟨first, rest⟩ := forall_mem_cons.mp others
    cases segments with
    | nil => simp [entryAfter]
    | cons items segments => rw [entryAfter, if_neg first, ih rest]

private theorem entryAfter_main {entry : Option Nat} {base : Nat} {before after : List Method}
    {m : Method}
    {front back : List (List Item)} {items : List Item} (length : front.length = before.length)
    (named : m.name = "main") (others : ∀ other ∈ after, other.name ≠ "main") :
    entryAfter entry base (before ++ m :: after) (front ++ items :: back) =
      some (base + Items.size front.flatten) := by
  induction before generalizing entry base front with
  | nil =>
    obtain rfl := length_eq_zero_iff.mp length
    rw [nil_append, nil_append, entryAfter, if_pos named, entryAfter_of_ne others]
    rfl
  | cons other before ih =>
    cases front with
    | nil => simp at length
    | cons first front =>
      rw [cons_append, cons_append, entryAfter, ih (by simpa using length)]
      simp [Nat.add_assoc]

variable {p : Program} {limits : Limits} {source : List Char} {globals final : SymbolTable}
  {segments : List (List Item)} {code : CodeBuffer}

/-- A program that is compiled begins with one of its methods, and those behind it have other
names. -/
theorem Program.Yields.hasMain (yields : p.Yields limits source globals final segments code) :
    ∃ before m after, p.methods = before ++ m :: after ∧ p.HasMain m ∧ m.name = "main" ∧
      ∀ other ∈ after, other.name ≠ "main" := by
  obtain ⟨m, member, named⟩ := yields.exists_main
  obtain ⟨before, after, methods⟩ := append_of_mem member
  have distinct := yields.distinct
  rw [methods, map_append, map_cons, nodup_middle, nodup_cons, named,
    ← map_append, mem_map, not_exists] at distinct
  have others : ∀ other ∈ before ++ after, other.name ≠ "main" :=
    fun other member same => distinct.1 other ⟨member, same⟩
  rw [forall_mem_append] at others
  have inside : before ++ [m] <+: p.methods := ⟨after, by simp [methods]⟩
  obtain ⟨front, items, back, _, t1, t2, _, earlier, compiled, _⟩ := yields.split inside
  have wellTyped := (earlier.global yields.toCompiles.global).1.wellTyped
  obtain ⟨noResult, noParameters⟩ := compiled.head_main wellTyped named
  refine ⟨before, m, after, methods, ⟨?_, noResult, noParameters⟩, named, others.2⟩
  have none {ms : List Method} (others : ∀ other ∈ ms, other.name ≠ "main") :
      ms.filter (·.name == "main") = [] := by
    simpa [filter_eq_nil_iff] using others
  rw [methods, filter_append, filter_cons_of_pos (by simp [named]), none others.1,
    none others.2, nil_append]

section

variable {before : List Method} {m : Method} {front : List (List Item)} {body : List Item}
  {t t' : SymbolTable} (yields : p.Yields limits source globals final segments code)
  (stored : p.HasStorage limits.clamped segments before m front body t t')
  (method : p.methods[before.length]? = some m)

include yields stored

include method in
/-- The table has the address where the code of a method begins. -/
theorem Program.Yields.begins : ∃ id, Begins m.name (Items.size front.flatten) id
    (final.leave.modify initial.next fun e => { e with locals := final.declared }) := by
  obtain ⟨type, back, same⟩ := stored.code
  have segment : (Items.segments 0 segments)[before.length]? =
      some (Items.instructions (Items.size front.flatten)
        (methodItems m.parameterCount m.names.length body type)) := by
    simp [Items.getElem?_segments, same, ← stored.length]
  obtain ⟨⟨id, first, head, begins⟩, _⟩ :=
    yields.hasCode.segment before.length m _ method segment
  cases head
  exact ⟨id, begins⟩

/-- The instruction where the code of a method begins sets up its frame. -/
theorem Program.Yields.enters :
    ∃ i, code.instructions.find? (·.addr == Items.size front.flatten) = some i ∧
      i.op? = some .enter ∧ i.operands = [(m.parameterCount : Int), (m.names.length : Int)] := by
  obtain ⟨type, back, same⟩ := stored.code
  have located := Items.at_flatten 0 front
    (methodItems m.parameterCount m.names.length body type) back
  rw [← same, Nat.zero_add] at located
  rw [CodeBuffer.instructions_eq yields.bytes]
  exact ⟨_, located.find? (Items.pairwise_instructions 0 segments.flatten),
    Item.instruction_op? _ _, stored.operands_enter _⟩

end

end Syntax

open Syntax

/-- A text is compiled only if its program has exactly one method that is called `main`, which has
neither a result nor parameters. The address that the symbol table has for it is the entry point.
The instruction there is `enter` for no parameters and the local variables of the method. The fourth
line of the object file is the address as a number of four bytes, so the address itself if it is below
`2 ^ 31`. -/
theorem compile_hasMain (limits : Limits) (source : List Char) :
    (∀ code, compile limits source = .ok code → ∃ (p : Program) (m : Method) (adr : Nat),
      p.IsTreeOf source ∧ p.HasMain m ∧ code.entry = some adr ∧
      (∃ s id, Compile.source (.start .standard limits source) = .ok ((), s) ∧ s.code = code ∧
        SymbolTable.Begins "main" adr id s.table) ∧
      (∃ i, code.instructions.find? (·.addr == adr) = some i ∧ i.op? = some .enter ∧
        i.operands = [0, (m.names.length : Int)]) ∧
      (code.objectText.toList.splitOn '\n')[3]? = some (toString (Int32.ofNat adr).toInt).toList ∧
      (code.EntryFits →
        (code.objectText.toList.splitOn '\n')[3]? = some (toString adr).toList)) ∧
    ∀ p : Program, p.IsTreeOf source → (¬ ∃ m, p.HasMain m) →
      ∃ error, compile limits source = .error error := by
  constructor
  · intro code compiled
    obtain ⟨s, source_s, rfl, p, globals, final, segments, yields, table⟩ :=
      Compilation.yields_of_accepted (compile_eq_ok_iff.mp compiled).2
    obtain ⟨before, m, after, methods, hasMain, named, others⟩ := yields.hasMain
    have inside : before ++ [m] <+: p.methods := ⟨after, by simp [methods]⟩
    obtain ⟨front, body, _, _, stored⟩ := yields.hasStorage inside
    obtain ⟨_, _, same⟩ := stored.code
    have entry := yields.entry
    rw [methods, same, entryAfter_main stored.length named others, Nat.zero_add] at entry
    have line := CodeBuffer.getElem?_splitOn_objectText entry
    refine ⟨p, m, Items.size front.flatten, yields.tree, hasMain, entry, ?_, ?_, line, fun fits => ?_⟩
    · obtain ⟨id, begins⟩ := yields.begins stored (by simp [methods])
      rw [named, ← table] at begins
      exact ⟨s, id, source_s, rfl, begins⟩
    · have enters := yields.enters stored
      rwa [hasMain.parameterCount] at enters
    · rw [line, Int32.toInt_ofNat_of_lt (fits _ entry)]
      rfl
  · intro p tree noMain
    cases compiled : compile limits source with
    | error error => exact ⟨error, rfl⟩
    | ok code =>
      obtain ⟨_, _, _, p', _, _, _, yields, _⟩ :=
        Compilation.yields_of_accepted (compile_eq_ok_iff.mp compiled).2
      obtain rfl := tree.unique yields.tree
      obtain ⟨_, m, _, _, hasMain, _⟩ := yields.hasMain
      exact absurd ⟨m, hasMain⟩ noMain

/-- A program in which a parameter, a local variable and the program itself are called `main` too. -/
def mainsSource : List Char :=
  "program main \x7b int f(int main) \x7b return main; \x7d void main() int main; \x7b main = f(1); \x7d \x7d".toList

def mainsMethod : Method :=
  ⟨none, "main", none, [⟨⟨"int", false⟩, "main", []⟩], [.assign (.mk "main" [])
    (.mk false (.mk (.call (.mk "f" []) (.mk [.mk false (.mk (.number 1) []) []] none)) []) [])]⟩

def mainsProgram : Program :=
  ⟨"main", [], [⟨some ⟨"int", false⟩, "f", some ⟨⟨⟨"int", false⟩, "main"⟩, [], false⟩, [],
    [.yield (some (.mk false (.mk (.value (.mk "main" [])) []) []))]⟩, mainsMethod]⟩

/-- A program in which only a variable is called `main`. -/
def mainlessSource : List Char := "program P int main; \x7b void f() \x7b \x7d \x7d".toList

def mainlessProgram : Program :=
  ⟨"P", [.vars ⟨⟨"int", false⟩, "main", []⟩], [⟨none, "f", none, [], []⟩]⟩

theorem compile_hasMain_mains :
    (∃ code i, compile .supported mainsSource = .ok code ∧ code.entry = some 8 ∧
      code.instructions.find? (·.addr == 8) = some i ∧ i.op? = some .enter ∧ i.operands = [0, 1] ∧
      (code.objectText.toList.splitOn '\n')[3]? = some ['8']) ∧
    ∃ error, compile .supported mainlessSource = .error error := by
  constructor
  · have entry : (Compilation.run .supported mainsSource).map (·.code.entry) = .ok (some 8) := by
      decide +kernel
    have tree : mainsProgram.IsTreeOf mainsSource := by decide +kernel
    obtain ⟨code, accepted⟩ :=
      Compilation.accepted_of_diagnostics .supported mainsSource (by decide +kernel)
    have compiled : compile .supported mainsSource = .ok code :=
      compile_eq_ok_iff.mpr ⟨rfl, accepted⟩
    rw [accepted] at entry
    replace entry : code.entry = some 8 := Except.ok.inj entry
    obtain ⟨p, m, adr, tree', hasMain, isEntry, _, ⟨i, found, enters, operands⟩, _, line⟩ :=
      (compile_hasMain .supported mainsSource).1 code compiled
    obtain rfl := tree.unique tree'
    obtain rfl : mainsMethod = m := List.singleton_inj.mp hasMain.only
    obtain rfl : 8 = adr := Option.some.inj (entry.symm.trans isEntry)
    have fits : code.EntryFits := by
      rw [CodeBuffer.EntryFits, entry]
      decide
    exact ⟨code, i, compiled, entry, found, enters, operands, line fits⟩
  · have tree : mainlessProgram.IsTreeOf mainlessSource := by decide +kernel
    refine (compile_hasMain .supported mainlessSource).2 mainlessProgram tree ?_
    rintro ⟨m, hasMain⟩
    have only : [] = [m] := hasMain.only
    cases only

end MicroJava

import MicroJava.Proofs.Verification.Program
import MicroJava.Proofs.Verification.Statement

/-! # Typed stacks in the code of a program

The code of a program without problems keeps its stack in order, if no field is selected from the
name of a method. Each method has a stack of types for every instruction: what the instruction needs
is on the stack, and its successors find what it leaves. The stack is empty behind `enter`, where
statements begin and end, and wherever jumps lead to.
-/

namespace MicroJava

open Syntax SymbolTable Items List

namespace Frame

variable {v : Frame}

/-- The arguments of a method are all that is on the stack when it begins. -/
theorem Sound.takes_enter (sound : v.Sound)
    (parameters : (v.table.entity v.method).parameterCount ≤ v.slots.length) :
    v.Takes ((v.table.parameterTypes v.method).map v.stackType).reverse
      (.plain .enter [(v.table.entity v.method).parameterCount, v.slots.length] ⟨rfl, rfl⟩) [] := by
  have bound : v.slots.length ≤ 127 := sound.slots
  refine ⟨.enter, ?_⟩
  simp only [Opcode.widths, zip_cons_cons, zip_nil_right, mem_cons,
    not_mem_nil, or_false]
  rintro pair (rfl | rfl)
  · exact fits_byte (Nat.le_trans parameters bound)
  · exact fits_byte bound

/-- A method that returns something does not run into its end. -/
theorem typed_finishItems (v : Frame) : v.Typed [] (CodeBuffer.finishItems v.returns) [] := by
  unfold CodeBuffer.finishItems
  split
  · next void =>
    exact .cons (takes_bare .exit _) (takes_bare (.returnNothing void) _).typed
  · refine Takes.typed ⟨.trap, ?_⟩
    simpa [Opcode.widths] using fits_byte (n := 1) (by decide)

end Frame

namespace Syntax

variable {p : Program} {limits : Limits} {source : List Char} {globals final t t' : SymbolTable}
  {segments front : List (List Item)} {code : CodeBuffer} {before : List Method} {m : Method}
  {body : List Item} {v : Frame}

/-- The stack of types of a method: empty around statements, and before that its arguments. -/
theorem Program.HasFrame.verifies
    (frame : Program.HasFrame limits globals final segments before m front body t t' v)
    (unselected : t'.Unselected m.uses) : ∃ stack bounds,
      Stmt.Marked v.returns none t (size front.flatten + 3) m.body body t' bounds ∧
      (∀ adr ∈ bounds, stack adr = []) ∧
      v.Verifies (instructions (size front.flatten) (methodItems
        (v.table.entity v.method).parameterCount v.slots.length body v.returns)) stack := by
  have contained := frame.statements.contained (Stmt.Compiles.contained _)
  have layout : Stmt.Layout v.returns none t (size front.flatten + 3) m.body body t' := by
    have resolved := frame.statements.layout (Stmt.Compiles.layout _) (Option.isSome_none).symm
    rwa [resolve_eq_self (contained.leads.without (by simp [Place.exits]))] at resolved
  obtain ⟨bounds, marks, marked, known, settles⟩ :=
    layout.settles frame.sound frame.describes frame.standing .refl unselected
  obtain ⟨stack, along, empty⟩ :=
    (settles.clear.append (.of_typed v.typed_finishItems)).exists_along
  -- The address of `enter` lies before all addresses of which anything is known.
  obtain ⟨stack', _, alongEnter, same⟩ := (frame.sound.takes_enter frame.parameters).typed.extend
    (empty _ (mem_append_left _ settles.clear.start_mem))
  have empty' (adr) (member : adr ∈ marks) : stack' adr = [] := by
    rw [same adr (settles.clear.le adr member)]
    exact empty adr (mem_append_left _ member)
  have along' : v.Along stack' (size front.flatten) (methodItems
      (v.table.entity v.method).parameterCount v.slots.length body v.returns) := by
    refine alongEnter.append fun inner i behind split => ?_
    rw [same _ (by omega), same _ (by omega)]
    exact along inner i behind split
  refine ⟨stack', bounds, marked, fun adr member => empty' adr (known member),
    along'.verifies frame.near ?_⟩
  have leads : Leads [] (fun adr => stack' adr = []) body := by
    refine settles.leads.mono (Subset.refl _) fun adr leads => ?_
    rcases leads with known | outside
    · exact empty' adr known
    · cases outside
  rw [methodItems, cons_append, ← singleton_append, leads_append, leads_append]
  exact ⟨by simp [Leads], leads, (CodeBuffer.straight_finishItems v.returns).leads⟩

/-- Names of methods that nothing is selected from in the text, as the compiler sees them. -/
theorem Program.HasFrame.unselected
    (frame : Program.HasFrame limits.clamped globals final segments before m front body t t' v)
    (yields : p.Yields limits source globals final segments code)
    (inside : before ++ [m] <+: p.methods)
    (unselected : ∀ u, p.NamesMethod before m u → ¬ u.IsSelected) : t'.Unselected m.uses := by
  intro u member selected
  have widens := (frame.statements.contained (Stmt.Compiles.contained _)).widens
  obtain ⟨t1, earlier, opens⟩ := frame.opens
  have other : p.meansMethod before m u.name = false := by
    cases means : p.meansMethod before m u.name with
    | false => rfl
    | true => exact absurd selected (unselected u ⟨inside, member, means⟩)
  rw [widens.calleeOf?]
  rcases Program.means_method yields.fresh yields.decls earlier opens u.name with
    ⟨own, _⟩ | ⟨_, callee⟩
  · simp [Program.meansMethod, own] at other
  · simp [callee, other]

end Syntax

/-- In a text without problems, in which no name of a method is followed by a period, every method
has a stack of types for each of its instructions. The frame is that of the method in the symbol
table at the end of the compilation, and `bounds` are the addresses where statements of the method
begin and end. -/
theorem Compilation.run_verifies {limits : Limits} {source : List Char} {code : CodeBuffer}
    {p : Program} (accepted : Compilation.run limits source = .ok ⟨code, []⟩)
    (tree : p.IsTreeOf source)
    (unselected : ∀ before m u, p.NamesMethod before m u → ¬ u.IsSelected) :
    ∃ (s : Compiler) (segments : List (List Instruction)),
      Compile.source (.start .standard limits source) = .ok ((), s) ∧ s.code = code ∧
      code.instructions = segments.flatten ∧ segments.length = p.methods.length ∧
      ∀ before m segment, before ++ [m] <+: p.methods → segments[before.length]? = some segment →
        ∃ (v : Frame) (base : Nat) (body : List Item) (t t' : SymbolTable) (bounds : List Nat)
          (stack : Nat → List StackType), v.table = s.table ∧ Begins m.name base v.method v.table ∧
          segment = Items.instructions base (methodItems (v.table.entity v.method).parameterCount
            v.slots.length body v.returns) ∧
          Stmt.Marked v.returns none t (base + 3) m.body body t' bounds ∧
          (∀ adr ∈ bounds, stack adr = []) ∧ v.Verifies segment stack := by
  obtain ⟨s, source_, rfl, _, _, _, segments, yields, table⟩ :=
    Compilation.yields_of_accepted accepted
  obtain rfl := tree.unique yields.tree
  refine ⟨s, Items.segments 0 segments, source_, rfl, ?_, ?_, fun before m segment inside found => ?_⟩
  · exact yields.flatten_segments
  · exact yields.hasCode.length
  · obtain ⟨front, body, t, t', v, frame⟩ := yields.hasFrame inside
    obtain ⟨stack, bounds, marked, empty, verifies⟩ :=
      frame.verifies (frame.unselected yields inside (unselected before m))
    obtain rfl := frame.segment found
    exact ⟨v, Items.size front.flatten, body, t, t', bounds, stack, frame.final.trans table.symm,
      frame.begins, rfl, marked, empty, verifies⟩

/-- A program with a loop, a field and a call. -/
def countdownSource : List Char :=
  "program P class C \x7b int a; \x7d \x7b int f(C c, int n) \x7b while (n > 0) \x7b c.a = n; n--; \x7d return c.a; \x7d void main() \x7b print(f(new C, 2)); \x7d \x7d".toList

/-- An expression that is just a factor. -/
def lone (f : Factor) : Expr := .mk false (.mk f []) []

def countdownMethod : Method :=
  ⟨some ⟨"int", false⟩, "f", some ⟨⟨⟨"C", false⟩, "c"⟩, [⟨⟨"int", false⟩, "n"⟩], false⟩, [],
    [.loop ⟨⟨⟨lone (.value (.mk "n" [])), .gt, lone (.number 0)⟩, []⟩, []⟩
      (.block [.assign (.mk "c" [.field "a"]) (lone (.value (.mk "n" []))),
        .step (.mk "n" []) false]),
      .yield (some (lone (.value (.mk "c" [.field "a"]))))]⟩

def printingMethod : Method :=
  ⟨none, "main", none, [], [.print (lone (.call (.mk "f" [])
    (.mk [lone (.object "C"), lone (.number 2)] none))) none]⟩

def countdownProgram : Program :=
  ⟨"P", [.classDecl "C" [⟨⟨"int", false⟩, "a", []⟩]], [countdownMethod, printingMethod]⟩

theorem Compilation.run_verifies_countdown : ∃ code,
    Compilation.run .supported countdownSource = .ok ⟨code, []⟩ ∧
    countdownProgram.IsTreeOf countdownSource ∧
    (∀ before m u, countdownProgram.NamesMethod before m u → ¬ u.IsSelected) ∧
    ∃ (segment segment' : List Instruction) (v v' : Frame) (stack stack' : Nat → List StackType),
      code.instructions = segment ++ segment' ∧ v.Verifies segment stack ∧
      v'.Verifies segment' stack' := by
  obtain ⟨code, accepted⟩ :=
    Compilation.accepted_of_diagnostics .supported countdownSource (by decide +kernel)
  have tree : countdownProgram.IsTreeOf countdownSource := by decide +kernel
  have unselected : ∀ before m u, countdownProgram.NamesMethod before m u → ¬ u.IsSelected := by
    intro before m u names selected
    have isVariable : ∀ m ∈ countdownProgram.methods, ∀ u ∈ m.uses, u.IsSelected →
        u.name ∈ m.names := by decide
    have known := isVariable m (names.method.subset (by simp)) u names.inside selected
    have means := names.means
    simp [Program.meansMethod, Program.meansOwn, known] at means
  obtain ⟨_, segments, _, _, all, length, methods⟩ :=
    Compilation.run_verifies accepted tree unselected
  obtain ⟨segment, segment', rfl⟩ : ∃ segment segment', segments = [segment, segment'] :=
    length_eq_two.mp length
  obtain ⟨v, _, _, _, _, _, stack, _, _, _, _, _, verifies⟩ :=
    methods [] countdownMethod segment ⟨_, rfl⟩ rfl
  obtain ⟨v', _, _, _, _, _, stack', _, _, _, _, _, verifies'⟩ :=
    methods [countdownMethod] printingMethod segment' ⟨[], rfl⟩ rfl
  exact ⟨code, accepted, tree, unselected, segment, segment', v, v', stack, stack',
    by simpa using all, verifies, verifies'⟩

end MicroJava

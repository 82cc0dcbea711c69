import MicroJava.Proofs.Calls
import MicroJava.Proofs.Verification.Value

/-! # Frames of the methods of a program

Every method of a program without problems has a frame in the table at the end of the compilation.
The frame is sound and describes the table in which the body of the method is compiled, and the
operands of `enter` count the variables in the frame.
-/

namespace MicroJava

namespace SymbolTable

variable {t u : SymbolTable} {limit more : Nat}

theorem WellTyped.mono (wellTyped : t.WellTyped limit) (le : limit ≤ more) : t.WellTyped more where
  based := wellTyped.based
  sound := wellTyped.sound
  field := wellTyped.field
  fieldCount a := Nat.le_trans (wellTyped.fieldCount a) le

theorem Continues.varCount (continues : t.Continues u) : u.varCount = t.varCount := by
  obtain ⟨_, s, s', outer, scopes, scopes', count, _⟩ := continues
  simp [SymbolTable.varCount, scopes, scopes', count]

/-- The variables that the program owns at the end are those in its scope. -/
theorem Global.length_slotTypes (global : t.Global limit) :
    (t.finish.slotTypes initial.next).length = t.varCount := by
  obtain ⟨outer, above, _⟩ := global.scopes
  obtain ⟨s, scopes, _⟩ := above.current
  have orderly := global.orderly s [outer] (scopes ▸ List.suffix_rfl)
  rw [SymbolTable.length_slotTypes orderly global.finish.1]
  · simp [SymbolTable.varCount, scopes]
  · rw [locals_finish global.program.1]
    simp [SymbolTable.declared, scopes]

/-- Where a frame describes the table behind the statements, the table before them is known well. -/
theorem Standing.of_describes {v : Frame} (describes : v.Describes u) (widens : t.Widens u)
    (wellTyped : t.WellTyped Limits.supported.fields) (prepared : t.Prepared) : t.Standing where
  wellTyped := wellTyped
  callables := prepared.callables wellTyped.based
  visible name id found := by
    rw [← widens.lookup] at found
    rw [← widens.entity, ← widens.contains]
    exact ⟨describes.inside name id found,
      fun isVar => (describes.slot name id found isVar).1.declared⟩

end SymbolTable

namespace Syntax

open SymbolTable

variable {p : Program} {limits : Limits} {source : List Char} {globals final : SymbolTable}
  {segments : List (List Item)} {code : CodeBuffer} {before : List Method} {m : Method}

/-- A method of a program with its frame at the end of the compilation, and the items of its body
with the tables before and behind them. -/
structure Program.HasFrame (limits : Limits) (globals final : SymbolTable)
    (segments : List (List Item)) (before : List Method) (m : Method) (front : List (List Item))
    (body : List Item) (t t' : SymbolTable) (v : Frame) : Prop where
  length : front.length = before.length
  opens : ∃ t₁, Method.CompileAll limits globals 0 before front t₁ ∧
    m.Opens t₁ (Items.size front.flatten) t
  statements : Stmt.Sequence (Stmt.Compiles Compile.maxNesting) ⟨v.returns, false⟩ t
    (Items.size front.flatten + 3) m.body body t'
  code : ∃ back, segments = front ++ methodItems (v.table.entity v.method).parameterCount
    v.slots.length body v.returns :: back
  near : Items.farCount (Items.size front.flatten) (methodItems
    (v.table.entity v.method).parameterCount v.slots.length body v.returns) = 0
  final : v.table = final.finish
  begins : Begins m.name (Items.size front.flatten) v.method v.table
  parameters : (v.table.entity v.method).parameterCount ≤ v.slots.length
  sound : v.Sound
  standing : t.Standing
  describes : v.Describes t'

/-- The code of the method. -/
theorem Program.HasFrame.segment {front : List (List Item)} {body : List Item} {t t' : SymbolTable}
    {v : Frame} {segment : List Instruction}
    (frame : Program.HasFrame limits globals final segments before m front body t t' v)
    (found : (Items.segments 0 segments)[before.length]? = some segment) :
    Items.instructions (Items.size front.flatten) (methodItems
      (v.table.entity v.method).parameterCount v.slots.length body v.returns) = segment := by
  obtain ⟨back, same⟩ := frame.code
  simpa [Items.getElem?_segments, same, ← frame.length] using found

theorem Program.Yields.hasFrame (yields : p.Yields limits source globals final segments code)
    (inside : before ++ [m] <+: p.methods) : ∃ front body t t' v,
      Program.HasFrame limits.clamped globals final segments before m front body t t' v := by
  obtain ⟨front, items, back, _, t1, t2, same, earlier, compiled, later⟩ := yields.split inside
  have limited : limits.clamped.fields ≤ Limits.supported.fields := Nat.min_le_right ..
  have global := yields.toCompiles.global
  have global1 := (earlier.global global).1
  obtain ⟨finished, continues⟩ := later.global (compiled.global global1).1
  obtain ⟨finishedTyped, prepared, placed⟩ := finished.finish.2
  obtain ⟨t, t', body, opens, sequence, rfl, near, begins, parameters, capacity, describes⟩ :=
    compiled.describes global1 continues finished
  have widens := (sequence.contained (Stmt.Compiles.contained _)).widens
  refine ⟨front, body, t, t', ⟨final.finish, t1.next⟩, earlier.length, ⟨t1, earlier, opens⟩,
    sequence, ⟨back, same⟩, near, rfl, begins, parameters, ⟨finishedTyped.mono limited, prepared,
    placed, ?_, ?_⟩, ?_, describes⟩
  · exact Nat.le_trans capacity (Nat.min_le_right ..)
  · have whole := (yields.methods.global global).2
    change (final.finish.slotTypes initial.next).length ≤ _
    rw [finished.length_slotTypes, whole.varCount]
    exact Nat.le_trans yields.capacity (Nat.min_le_right ..)
  · exact .of_describes describes widens ((opens.wellTyped global1.wellTyped).mono limited)
      (opens.prepared global1)

end Syntax

end MicroJava

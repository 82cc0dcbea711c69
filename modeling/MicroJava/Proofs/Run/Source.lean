import MicroJava.Proofs.Lexing.Piece
import MicroJava.Proofs.Run.Program

/-! # Compiling a source text

Every text is read as a sequence of lexemes that ends with the end of the source, so a compilation
begins in a valid state and never fails. If it records no diagnostic, the text is that of a program
and the code is what the methods of the program compile to.
-/

namespace MicroJava

open Syntax SymbolTable Compilation

/-! ## The start of a compilation -/

theorem SymbolTable.initial_valid : initial.Valid where
  entities := by decide
  types := by decide
  type := by decide
  locals := by decide
  elem := by decide
  fields := by decide
  scopes := by decide

/-- A compilation begins in a valid state if its reporter drops no report at first. -/
theorem Compiler.start_valid {reporter : Reporter} (limits : Limits) (source : List Char)
    (ready : reporter.recorded = #[] → reporter.spacing ≤ reporter.distance) :
    (Compiler.start reporter limits source).Valid where
  table := initial_valid
  tokens := by
    obtain ⟨front, all, rare, named⟩ := Scanned.all_lexemes source
    refine ⟨.unknown :: front, ?_, by simp [rare], by simp [named]⟩
    simp [Compiler.start, TokenStream.upcoming, TokenStream.ofSource, Token.before, all]
  reporter := ready
  method := by simp [Compiler.start]
  exits := by simp [Compiler.start]
  code := ⟨[], rfl⟩

/-- What is known of a source text that is compiled without a diagnostic: which program it is, what
its methods compile to, and that the code consists of that. -/
structure Syntax.Program.Yields (p : Program) (limits : Limits) (source : List Char)
    (globals final : SymbolTable) (segments : List (List Item)) (code : CodeBuffer) : Prop
    extends p.Compiles limits.clamped globals final segments where
  tree : p.IsTreeOf source
  bytes : code.bytes.toList = Items.bytes 0 segments.flatten
  entry : code.entry = entryAfter none 0 p.methods segments
  dataSize : code.dataSize = globals.varCount

namespace Compile

open Compiler

variable {s : Compiler}

private theorem expect_eof (valid : s.Valid) :
    Ensures (expect .eof) s fun _ s' => s.Extends s' [] ∧ s'.table = s.table ∧
      (s'.Clean → s.Clean ∧ s.tokens.upcoming = [.eof]) := by
  refine .lookahead ?_
  split
  · next ended =>
    refine (scan_ensures valid).mono ?_
    rintro _ s1 ⟨extension, table, clean, _⟩
    exact ⟨extension, table, fun after => ⟨clean after, valid.tokens.upcoming_eof ended⟩⟩
  · refine (report_does valid _).mono ?_
    rintro _ s1 ⟨reported, problem⟩
    exact ⟨reported.toExtends, reported.table, fun clean => absurd clean problem⟩

theorem source_ensures (reporter : Reporter) (limits : Limits) (text : List Char)
    (ready : reporter.recorded = #[] → reporter.spacing ≤ reporter.distance) :
    Ensures source (.start reporter limits text) fun _ s' =>
      (Compiler.start reporter limits text).Grows s' ∧ s'.table.OnlyOutermost ∧
      (s'.Clean → ∃ (p : Program) (globals final : SymbolTable) (segments : List (List Item)),
        p.Yields limits text globals final segments s'.code ∧
        s'.table = final.leave.modify initial.next fun e =>
          { e with locals := final.declared }) := by
  have valid := start_valid limits text ready
  refine .bind (scan_ensures valid) ?_
  rintro _ s1 ⟨scanned, table, clean1, tokens⟩
  refine .bind (program_ensures scanned.valid table scanned.code scanned.method scanned.exits) ?_
  rintro _ s2 ⟨grows2, outermost, accepted2⟩
  refine (expect_eof grows2.valid).mono ?_
  rintro _ s3 ⟨ended, table, accepted3⟩
  have code : s3.code = s2.code := ended.code
  have enters1 := scanned.enters ⟨valid, by simp [Compiler.start, initial]⟩
  refine ⟨(enters1.toGrows.trans grows2).trans (ended.enters grows2.ready).toGrows, ?_,
    fun clean => ?_⟩
  · rw [table]
    exact outermost
  obtain ⟨clean, ending⟩ := accepted3 clean
  obtain ⟨clean, p, globals, final, segments, reads, proper, compiles, table2, bytes, entry, dataSize⟩ :=
    accepted2 clean
  rw [scanned.limits] at compiles
  refine ⟨p, globals, final, segments, ⟨compiles, ⟨?_, proper⟩, ?_, ?_, ?_⟩, ?_⟩
  · have first := valid.tokens.upcoming_eq
      (by simp [Compiler.start, TokenStream.ofSource, Token.before])
    rw [← tokens, reads, ending] at first
    simpa [TokenStream.upcoming, Compiler.start, TokenStream.ofSource, Token.all,
      Function.comp_def] using first
  · rw [code]
    exact bytes
  · rw [code]
    exact entry
  · rw [code]
    exact dataSize
  · rw [table]
    exact table2

end Compile

/-- What a compilation results in, by its last state. -/
theorem Compilation.runWith_of_source {reporter : Reporter} {limits : Limits} {source : List Char}
    {s : Compiler} (run : Compile.source (.start reporter limits source) = .ok ((), s)) :
    runWith reporter limits source = .ok ⟨s.code, s.reporter.recorded.toList⟩ := by
  change (Compile.source (.start reporter limits source) >>= _) = _
  rw [run]
  rfl

/-- Every source text compiles to complete instructions, and one without problems to those of its
program. The symbol table is the one at the end of the compilation. -/
theorem Compilation.run_yields (limits : Limits) (source : List Char) :
    ∃ s : Compiler, Compile.source (.start .standard limits source) = .ok ((), s) ∧
      run limits source = .ok ⟨s.code, s.reporter.recorded.toList⟩ ∧ s.code.Complete ∧
      (s.reporter.recorded.toList = [] → ∃ (p : Program) (globals final : SymbolTable)
        (segments : List (List Item)), p.Yields limits source globals final segments s.code ∧
        s.table = final.leave.modify initial.next fun e =>
          { e with locals := final.declared }) := by
  obtain ⟨_, s, run, grows, _, accepted⟩ :=
    Compile.source_ensures .standard limits source fun _ => Nat.le_refl _
  exact ⟨s, run, runWith_of_source run, grows.valid.code,
    fun none => accepted (Array.toList_eq_nil_iff.mp none)⟩

/-- A text without diagnostics has code. -/
theorem Compilation.accepted_of_diagnostics (limits : Limits) (source : List Char)
    (none : (run limits source).map (·.diagnostics) = .ok []) :
    ∃ code, run limits source = .ok ⟨code, []⟩ := by
  obtain ⟨s, _, run, _⟩ := run_yields limits source
  rw [run] at none
  have recorded : s.reporter.recorded.toList = [] := Except.ok.inj none
  exact ⟨s.code, by rw [run, recorded]⟩

/-- The code of a text without problems is that of its program. -/
theorem Compilation.yields_of_accepted {limits : Limits} {source : List Char} {code : CodeBuffer}
    (accepted : run limits source = .ok ⟨code, []⟩) :
    ∃ s : Compiler, Compile.source (.start .standard limits source) = .ok ((), s) ∧ s.code = code ∧
      ∃ (p : Program) (globals final : SymbolTable) (segments : List (List Item)),
        p.Yields limits source globals final segments code ∧
        s.table = final.leave.modify initial.next fun e =>
          { e with locals := final.declared } := by
  obtain ⟨s, source_s, run, _, yields⟩ := run_yields limits source
  rw [run, Except.ok.injEq, Compilation.mk.injEq] at accepted
  obtain ⟨rfl, none⟩ := accepted
  exact ⟨s, source_s, rfl, yields none⟩

/-- A text is compiled exactly if the limits are supported and nothing is found. -/
theorem compile_eq_ok_iff {limits : Limits} {source : List Char} {code : CodeBuffer} :
    compile limits source = .ok code ↔
      limits.excess? = none ∧ run limits source = .ok ⟨code, []⟩ := by
  unfold compile
  cases limits.excess? with
  | some excess => simp
  | none =>
    match run limits source with
    | .error fault => simp
    | .ok ⟨_, []⟩ => simp
    | .ok ⟨_, d :: ds⟩ => simp

end MicroJava

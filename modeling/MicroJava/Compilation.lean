import MicroJava.Compiler.Declaration

/-! # Compiling a source text

`Compilation.run` compiles any text, right or wrong, and yields the code and the problems found.
`compile` accepts only texts without problems.
-/

namespace MicroJava

/-- What compiling a source text results in. -/
structure Compilation where
  code : CodeBuffer
  diagnostics : List Diagnostic
deriving DecidableEq, Repr

namespace Compilation

/-- Compiles a source text with a given reporter. Limits that are too large are lowered. -/
def runWith (reporter : Reporter) (limits : Limits) (source : List Char) :
    Except Fault Compilation := do
  let ((), final) ← Compile.source (.start reporter limits source)
  return ⟨final.code, final.reporter.recorded.toList⟩

/-- Compiles a source text. Limits that are too large are lowered. -/
def run (limits : Limits) (source : List Char) : Except Fault Compilation :=
  runWith .standard limits source

end Compilation

/-- Why there is no code. -/
inductive CompileError where
  /-- The source has problems. -/
  | source (diagnostics : List Diagnostic)
  /-- The instruction set does not support a limit; nothing was compiled. -/
  | limits (excess : LimitExcess)
  /-- A contract of the library was broken. -/
  | fault (broken : Fault)
deriving DecidableEq, Repr

/-- The wording of an error. -/
def CompileError.message : CompileError → String
  | source diagnostics => s!"{Diagnostic.messages diagnostics}\n{diagnostics.length} errors"
  | limits excess => s!"config error: {excess.message}"
  | fault broken => broken.message

/-- Compiles a source text that has no problems. -/
def compile (limits : Limits) (source : List Char) : Except CompileError CodeBuffer :=
  match limits.excess? with
  | some excess => .error (.limits excess)
  | none =>
    match Compilation.run limits source with
    | .error fault => .error (.fault fault)
    | .ok ⟨code, []⟩ => .ok code
    | .ok ⟨_, diagnostics⟩ => .error (.source diagnostics)

end MicroJava

import MicroJava.Code.Listing
import MicroJava.CommandLine.FileTree
import MicroJava.Compilation

/-! # The command line

`build` compiles a file and writes the object file, `list` compiles it and prints a listing, and
`lex` prints its tokens. All three are functions of the arguments and of what the host provides; what
they print is part of their outcome.
-/

namespace MicroJava.CommandLine

/-! ## Arguments -/

/-- What is to be done. -/
inductive Command where
  | build | lex | list
deriving DecidableEq, Repr

/-- The command with a given name. -/
def Command.ofName? : String → Option Command
  | "build" => some .build
  | "lex" => some .lex
  | "list" => some .list
  | _ => none

/-- What follows the command. -/
structure Options where
  file : Option String := none
  output : Option String := none
  settings : Option String := none
deriving DecidableEq, Repr

/-- Reads options. Of an option that is given twice, the last one counts; a second file, an unknown
option and an option without its value are refused. -/
def Options.parse (o : Options) : List String → Option Options
  | [] => some o
  | [arg] =>
    if o.file.isNone ∧ arg.toList.head? ≠ some '-' then some { o with file := some arg } else none
  | arg :: value :: rest =>
    if arg = "-o" then Options.parse { o with output := some value } rest
    else if arg = "--config" then Options.parse { o with settings := some value } rest
    else if o.file.isNone ∧ arg.toList.head? ≠ some '-' then
      Options.parse { o with file := some arg } (value :: rest)
    else none

/-- A well-formed list of arguments. -/
structure Invocation where
  command : Command
  file : String
  output : Option String
  settings : Option String
deriving DecidableEq, Repr

/-- Reads the arguments. -/
def Invocation.ofArguments? : List String → Option Invocation
  | [] => none
  | name :: args => do
    let command ← Command.ofName? name
    let options ← Options.parse {} args
    let file ← options.file
    return { command, file, output := options.output, settings := options.settings }

/-- The path with the extension of its last part replaced. A part that begins with its only dot has
no extension. -/
def withExtension (path extension : String) : String :=
  let reversed := path.toList.reverse
  let name := reversed.takeWhile (· ≠ '/')
  let stem := (name.dropWhile (· ≠ '.')).drop 1
  let kept := if stem = [] then reversed else stem ++ reversed.drop name.length
  String.ofList kept.reverse ++ "." ++ extension

/-- Where `build` writes the object file. -/
def Invocation.target (i : Invocation) : String := i.output.getD (withExtension i.file "obj")

/-! ## Outcomes -/

/-- Why a settings file cannot be used. -/
inductive SettingsError where
  | undecodable (path reason : String)
  | excess (e : LimitExcess)
deriving DecidableEq, Repr

/-- The wording of an error. -/
def SettingsError.message : SettingsError → String
  | undecodable path reason => s!"{path}: {reason}"
  | excess e => e.message

/-- Why a run was given up. -/
inductive Failure where
  | file (path : String) (e : FileError)
  | settings (e : SettingsError)
  | contract (broken : Fault)
deriving DecidableEq, Repr

/-- The wording of a failure. -/
def Failure.message : Failure → String
  | file _ e => s!"i/o error: {e.message}"
  | settings e => s!"config error: {e.message}"
  | contract broken => broken.message

/-- What a run leaves behind, apart from files. -/
structure Outcome where
  exitCode : Nat
  /-- What was printed. -/
  printed : String
  failure : Option Failure := none
deriving DecidableEq, Repr

/-- The outcome of a run that was given up. -/
def Outcome.failed (failure : Failure) (printed : String) : Outcome :=
  { exitCode := 1, printed, failure := some failure }

/-- How to use the program. -/
def usage : String :=
  "MicroJava compiler v0.3.0\n" ++
  "\n" ++
  "usage: mjc CMD FILE [OPTIONS]\n" ++
  "\n" ++
  "commands:\n" ++
  "    build   Compile the source file into an object file\n" ++
  "    lex     Print the tokens of the source file\n" ++
  "    list    Compile the source file and print a listing\n" ++
  "\n" ++
  "options:\n" ++
  "    -o OUT          Object file to write (build only, default FILE.obj)\n" ++
  "    --config CONF   YAML file with capacity limits\n" ++
  "\n" ++
  "examples:\n" ++
  "    mjc build sample.mj\n" ++
  "    mjc build sample.mj -o out/sample.obj --config limits.yaml\n" ++
  "    mjc list sample.mj\n" ++
  "\n"

/-- The outcome of a run whose arguments are not well formed. -/
def Outcome.misused : Outcome := { exitCode := 64, printed := usage }

/-- The line of a token in a token table. -/
def tokenLine (t : Token) : String :=
  let place := s!"{Text.alignRight 5 (toString t.pos.line)}:{Text.alignLeft 4 (toString t.pos.col)}"
  let start := s!"{place} {Text.alignLeft 16 t.kind.label}"
  match t.lexeme with
  | .ident name => s!"{start} {name}\n"
  | .number value | .charConst value => s!"{start} {value.toInt}\n"
  | _ => s!"{start}\n"

/-- The outcome of printing the tokens of a source text. -/
def tokenTable (source : List Char) : Outcome :=
  let head := " line:col  | token          | value \n"
  let table := (Token.all source).foldl (fun text t => text ++ tokenLine t) head
  match Diagnostic.lexical source with
  | [] => { exitCode := 0, printed := table }
  | problems => { exitCode := 1, printed := s!"{table}{Diagnostic.messages problems}\n" }

/-! ## Runs -/

variable {m : Type → Type} [Monad m]

/-- A run that may end early. -/
abbrev Run (m : Type → Type) := ExceptT Outcome m

/-- Ends a run with a failure before anything was printed. -/
def fail {α : Type} (failure : Failure) : Run m α := throw (.failed failure "")

/-- Ends a run if the system refused something about a file. -/
def require {α : Type} (path printed : String) : Except FileError α → Run m α
  | .ok a => return a
  | .error e => throw (.failed (.file path e) printed)

/-- Reads a file as a text. -/
def readText (host : Host m) (path : String) : Run m (List Char) := do
  let bytes ← require path "" (← host.read path)
  match String.fromUTF8? bytes with
  | some text => return text.toList
  | none => fail (.file path .notText)

/-- The limits that the settings file states, if there is one. -/
def readLimits (host : Host m) : Option String → Run m Limits
  | none => return .supported
  | some path => do
    match host.decode (← readText host path) with
    | .error reason => fail (.settings (.undecodable path reason))
    | .ok limits =>
      match limits.excess? with
      | none => return limits
      | some e => fail (.settings (.excess e))

/-- Compiles the source file. A run ends here if the source has problems. -/
def compileFile (host : Host m) (i : Invocation) : Run m CodeBuffer := do
  let source ← readText host i.file
  let limits ← readLimits host i.settings
  match compile limits source with
  | .ok code => return code
  | .error (.source diagnostics) =>
    throw { exitCode := 1
            printed := s!"{Diagnostic.messages diagnostics}\n{diagnostics.length} errors.\n" }
  | .error (.limits e) => fail (.settings (.excess e))
  | .error (.fault broken) => fail (.contract broken)

/-- What is printed when a source has no problems. -/
def noErrors : String := "No errors.\n"

/-- Runs a command. -/
def perform (host : Host m) (i : Invocation) : Run m Outcome := do
  match i.command with
  | .build =>
    let code ← compileFile host i
    let handle ← require i.target noErrors (← host.create i.target)
    require i.target noErrors (← host.write handle code.objectText)
    return { exitCode := 0, printed := noErrors }
  | .list =>
    let code ← compileFile host i
    return { exitCode := 0, printed := noErrors ++ code.listing }
  | .lex => return tokenTable (← readText host i.file)

/-- Runs the program with the given arguments. -/
def run (host : Host m) (args : List String) : m Outcome := do
  match Invocation.ofArguments? args with
  | none => return .misused
  | some invocation =>
    match ← (perform host invocation).run with
    | .ok outcome | .error outcome => return outcome

end MicroJava.CommandLine

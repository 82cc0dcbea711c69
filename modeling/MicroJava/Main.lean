import MicroJava.CommandLine.Basic

/-! # The program

Runs the command line on the files of the system. -/

namespace MicroJava.CommandLine

/-- Runs a file operation, turning what the system refuses into an error. -/
def attempt {α : Type} (action : IO α) : IO (Except FileError α) := do
  try return .ok (← action)
  catch e => return .error (.refused (toString e))

/-- The files of the system, with a reader for plain settings files. -/
def system : Host IO where
  read path := attempt (IO.FS.readBinFile path)
  Handle := IO.FS.Handle
  create path := attempt (IO.FS.Handle.mk path .write)
  write handle text := attempt do
    handle.putStr text
    handle.flush
  decode := Settings.decode

end MicroJava.CommandLine

open MicroJava in
/-- Runs the command line, prints what it leaves to be printed and ends with its exit code. -/
def main (args : List String) : IO UInt32 := do
  let outcome ← CommandLine.run CommandLine.system args
  IO.print outcome.printed
  match outcome.failure with
  | some failure => IO.eprintln failure.message
  | none => pure ()
  return UInt32.ofNat outcome.exitCode

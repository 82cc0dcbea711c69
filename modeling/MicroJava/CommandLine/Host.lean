import MicroJava.Limits

/-! # What the command line needs from the system

The compiler reads files and creates at most one, and settings files are decoded for it. `Host` is
all it asks for. What is known of a host stands in the theorems that need it.
-/

namespace MicroJava

/-- Why a file cannot be read or written. -/
inductive FileError where
  | notFound
  | isDirectory
  /-- The bytes are no text. -/
  | notText
  /-- Anything else that the system may refuse. -/
  | refused (reason : String)
deriving DecidableEq, Repr

/-- The wording of an error. -/
def FileError.message : FileError → String
  | notFound => "no such file or directory"
  | isDirectory => "is a directory"
  | notText => "does not contain valid text"
  | refused reason => reason

/-- Access to files, and a decoder of settings files. -/
structure Host (m : Type → Type) where
  /-- Reads a whole file. -/
  read : String → m (Except FileError ByteArray)
  /-- A file that is open for writing. -/
  Handle : Type
  /-- Creates a file, or empties the one that is there. -/
  create : String → m (Except FileError Handle)
  /-- Writes a text to a file that was just created. -/
  write : Handle → String → m (Except FileError Unit)
  /-- The limits that a settings file states, or why it states none. -/
  decode : List Char → Except String Limits

end MicroJava

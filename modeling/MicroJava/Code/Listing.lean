import MicroJava.Code.Buffer
import MicroJava.Text.Column

/-! # Code as text

An object file is the head and one instruction a line. A listing is the same for reading: every
line also has its address, a mark at the entry point, and where a jump or call leads.
-/

namespace MicroJava.CodeBuffer

/-- The entry point as the head of an object file states it: a signed number of four bytes, and
minus one if there is none. -/
def entryNumber (c : CodeBuffer) : Int :=
  match c.entry with
  | some adr => (Int32.ofNat adr).toInt
  | none => -1

/-- The head of an object file: the format, the size of the code, the number of global variables
and the entry point. -/
def headText (c : CodeBuffer) : String :=
  s!"MJ\n{c.pc}\n{c.dataSize}\n{c.entryNumber}\n"

/-- The object file. -/
def objectText (c : CodeBuffer) : String :=
  c.instructions.foldl (fun text i => text ++ i.text ++ "\n") c.headText

/-- The line of an instruction in a listing. -/
def listingLine (c : CodeBuffer) (i : Instruction) : String :=
  let mark := if c.entry = some i.addr then ">" else " "
  let line := s!"{mark}{Text.alignRight 5 (toString i.addr)}: {Text.alignLeft 16 i.text}"
  match i.target? with
  | some target => s!"{line} -> {target}\n"
  | none => s!"{line}\n"

/-- The listing. -/
def listing (c : CodeBuffer) : String :=
  c.instructions.foldl (fun text i => text ++ c.listingLine i) c.headText

end MicroJava.CodeBuffer

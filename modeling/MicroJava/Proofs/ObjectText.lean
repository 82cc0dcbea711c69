import Mathlib.Algebra.Group.Nat.Defs
import Mathlib.Data.List.Basic
import MicroJava.Code.Listing
import MicroJava.Proofs.Code.Partition

/-! # Object files determine the code

`CodeBuffer.ofObjectText?` reads an object file: the number of global variables and the entry point
from the head, and from every other line the bytes of one instruction. It yields the code that the
file was written for, whatever bytes that has. Bytes that are no opcode and operands that are missing
at the end of the code are no exception, because every byte stands in the text.
-/

namespace MicroJava

open List

/-! ## Reading -/

/-- The value of a decimal number. -/
def numberOfWord? (word : List Char) : Option Nat :=
  if word ≠ [] ∧ word.all Char.isDigit then some (Nat.ofDigitChars 10 word 0) else none

/-- The entry point by its word in the head: minus one if there is none. -/
def entryOfWord? : List Char → Option (Option Nat)
  | ['-', '1'] => some none
  | word => (numberOfWord? word).map some

namespace Instruction

/-- The byte that a decimal number stands for. -/
def byteOfWord? (word : List Char) : Option UInt8 := (numberOfWord? word).map UInt8.ofNat

/-- The first byte of an instruction by the first word of its line. -/
def codeOfWord? : List Char → Option UInt8
  | '?' :: number => byteOfWord? number
  | name => (Opcode.ofMnemonic? (String.ofList name)).map Opcode.code

/-- The bytes of an instruction by its line. -/
def bytesOfLine? (line : List Char) : Option (List UInt8) :=
  match line.splitOn ' ' with
  | [] => none
  | head :: operands => do
    let code ← codeOfWord? head
    let bytes ← operands.mapM byteOfWord?
    return code :: bytes

end Instruction

/-- The code that an object file states. The size in the head has to be right. -/
def CodeBuffer.ofObjectText? (text : String) : Option CodeBuffer :=
  match text.toList.splitOn '\n' with
  | ['M', 'J'] :: size :: dataSize :: entry :: lines => do
    let bytes ← lines.dropLast.mapM Instruction.bytesOfLine?
    let size ← numberOfWord? size
    let dataSize ← numberOfWord? dataSize
    let entry ← entryOfWord? entry
    if size = bytes.flatten.length then
      return { bytes := bytes.flatten.toArray, entry, dataSize }
    else none
  | _ => none

/-! ## Splitting at separators -/

section Split

variable {separator : Char}

private theorem splitOn_ended {lines : List (List Char)}
    (apart : ∀ line ∈ lines, separator ∉ line) :
    (lines.flatMap (· ++ [separator])).splitOn separator = lines ++ [[]] := by
  induction lines with
  | nil => rfl
  | cons line lines ih =>
    obtain ⟨first, others⟩ := forall_mem_cons.mp apart
    rw [flatMap_cons, append_assoc, singleton_append,
      splitOn_append_cons_self_of_not_mem first, ih others, cons_append]

/-- Words with a separator before each but the first. -/
theorem splitOn_separated {head : List Char} {words : List (List Char)} (front : separator ∉ head)
    (apart : ∀ word ∈ words, separator ∉ word) :
    (head ++ words.flatMap (separator :: ·)).splitOn separator = head :: words := by
  induction words generalizing head with
  | nil => rw [flatMap_nil, append_nil, splitOn_eq_singleton front]
  | cons word words ih =>
    obtain ⟨first, others⟩ := forall_mem_cons.mp apart
    rw [flatMap_cons, cons_append, splitOn_append_cons_self_of_not_mem front, ih first others]

end Split

/-! ## Numbers -/

private theorem toList_toString (n : Nat) : (toString n).toList = Nat.toDigits 10 n := by
  rw [Nat.toString_eq_ofList_toDigits, String.toList_ofList]

private theorem isDigit_of_mem_toString {n : Nat} {c : Char} (member : c ∈ (toString n).toList) :
    c.isDigit := by
  rw [toList_toString] at member
  exact Nat.isDigit_of_mem_toDigits (by decide) (by decide) member

private theorem not_mem_toString {c : Char} (other : c.isDigit = false) (n : Nat) :
    c ∉ (toString n).toList := by
  intro member
  rw [isDigit_of_mem_toString member] at other
  cases other

private theorem numberOfWord?_toString (n : Nat) : numberOfWord? (toString n).toList = some n := by
  have digits : (toString n).toList.all Char.isDigit :=
    all_eq_true.mpr fun _ => isDigit_of_mem_toString
  have nonempty : (toString n).toList ≠ [] := by
    rw [toList_toString]
    exact Nat.toDigits_ne_nil
  rw [numberOfWord?, if_pos ⟨nonempty, digits⟩, toList_toString, Nat.ofDigitChars_ten_toDigits]

private theorem mapM_read {α β γ : Type} {write : α → β} {read : β → Option γ} {value : α → γ}
    {parts : List α} (back : ∀ part ∈ parts, read (write part) = some (value part)) :
    (parts.map write).mapM read = some (parts.map value) := by
  induction parts with
  | nil => rfl
  | cons part parts ih =>
    obtain ⟨first, others⟩ := forall_mem_cons.mp back
    simp [mapM_cons, first, ih others]

/-! ## Instructions -/

namespace Opcode

private theorem ofMnemonic?_mnemonic (op : Opcode) : ofMnemonic? op.mnemonic = some op := by
  cases op <;> rfl

/-- A mnemonic is one word, and differs from the word for an unknown opcode. -/
theorem mnemonic_word (op : Opcode) :
    ' ' ∉ op.mnemonic.toList ∧ '\n' ∉ op.mnemonic.toList ∧ op.mnemonic.toList.head? ≠ some '?' := by
  cases op <;> decide

private theorem ctorIdx_all : ∀ i : Fin all.size, all[i].ctorIdx = i := by decide

private theorem code_of_ofByte? {b : UInt8} {op : Opcode} (known : ofByte? b = some op) :
    op.code = b := by
  unfold ofByte? at known
  split at known
  · cases known
  · next nonzero =>
    obtain ⟨within, rfl⟩ := Array.getElem?_eq_some_iff.mp known
    have positive : b.toNat ≠ 0 := fun zero => nonzero (UInt8.toNat_inj.mp zero)
    have index : all[b.toNat - 1].ctorIdx = b.toNat - 1 := ctorIdx_all ⟨b.toNat - 1, within⟩
    rw [code, index, Nat.sub_add_cancel (by omega), UInt8.ofNat_toNat]

end Opcode

namespace Instruction

private theorem byteOfWord?_toString (b : UInt8) :
    byteOfWord? (toString b.toNat).toList = some b := by
  rw [byteOfWord?, numberOfWord?_toString, Option.map_some, UInt8.ofNat_toNat]

/-- The first word of a line, for any first byte. -/
def head (i : Instruction) : String :=
  match i.op? with
  | some op => op.mnemonic
  | none => s!"?{i.code.toNat}"

section

variable (i : Instruction)

include i

private theorem codeOfWord?_head : codeOfWord? i.head.toList = some i.code := by
  unfold head
  cases known : i.op? with
  | none =>
    change codeOfWord? ("?" ++ toString i.code.toNat).toList = _
    rw [String.toList_append]
    exact byteOfWord?_toString i.code
  | some op =>
    have named : codeOfWord? op.mnemonic.toList =
        (Opcode.ofMnemonic? (String.ofList op.mnemonic.toList)).map Opcode.code := by
      have other := op.mnemonic_word.2.2
      unfold codeOfWord?
      split
      · next starts => exact absurd (congrArg head? starts) other
      · rfl
    rw [named, String.ofList_toList, Opcode.ofMnemonic?_mnemonic, Option.map_some,
      Opcode.code_of_ofByte? known]

private theorem head_word : ' ' ∉ i.head.toList ∧ '\n' ∉ i.head.toList := by
  unfold head
  cases i.op? with
  | some op => exact ⟨op.mnemonic_word.1, op.mnemonic_word.2.1⟩
  | none =>
    change ' ' ∉ ("?" ++ toString i.code.toNat).toList ∧ '\n' ∉ ("?" ++ toString i.code.toNat).toList
    simp only [String.toList_append, mem_append, not_or]
    exact ⟨⟨by decide, not_mem_toString rfl _⟩, by decide, not_mem_toString rfl _⟩

private theorem text_toList : i.text.toList =
    i.head.toList ++ (i.bytes.map fun b => (toString b.toNat).toList).flatMap (' ' :: ·) := by
  have words (bytes : List UInt8) (line : String) :
      (bytes.foldl (fun line b => s!"{line} {b.toNat}") line).toList =
        line.toList ++ (bytes.map fun b => (toString b.toNat).toList).flatMap (' ' :: ·) := by
    induction bytes generalizing line with
    | nil => simp
    | cons b bytes ih =>
      rw [foldl_cons, ih]
      change (line ++ " " ++ toString b.toNat).toList ++ _ = _
      simp
  exact words i.bytes i.head

/-- The line of an instruction has all its bytes. -/
theorem bytesOfLine?_text : bytesOfLine? i.text.toList = some i.allBytes := by
  have apart : ∀ word ∈ i.bytes.map fun b => (toString b.toNat).toList, ' ' ∉ word := by
    intro word member
    obtain ⟨b, _, rfl⟩ := mem_map.mp member
    exact not_mem_toString rfl b.toNat
  have operands := mapM_read fun b (_ : b ∈ i.bytes) => byteOfWord?_toString b
  rw [map_id'] at operands
  rw [bytesOfLine?, text_toList, splitOn_separated i.head_word.1 apart]
  change (codeOfWord? i.head.toList).bind _ = _
  rw [codeOfWord?_head, Option.bind_some, operands]
  rfl

private theorem newline_not_mem_text : '\n' ∉ i.text.toList := by
  rw [text_toList, mem_append, not_or]
  refine ⟨i.head_word.2, fun member => ?_⟩
  obtain ⟨word, written, inside⟩ := mem_flatMap.mp member
  obtain ⟨b, _, rfl⟩ := mem_map.mp written
  rcases mem_cons.mp inside with blank | digit
  · cases blank
  · exact not_mem_toString rfl b.toNat digit

end

end Instruction

/-! ## Object files -/

namespace CodeBuffer

variable {c : CodeBuffer}

/-- Whether the entry point, if there is one, can be stated in the head of an object file. -/
def EntryFits (c : CodeBuffer) : Prop := ∀ adr ∈ c.entry, adr < 2 ^ 31

instance (c : CodeBuffer) : Decidable c.EntryFits :=
  inferInstanceAs (Decidable (∀ adr ∈ c.entry, adr < 2 ^ 31))

private theorem toString_entryNumber {adr : Nat} (entry : c.entry = some adr)
    (small : adr < 2 ^ 31) :
    toString c.entryNumber = toString adr := by
  have same : (Int32.ofNat adr).toInt = adr := Int32.toInt_ofNat_of_lt small
  rw [entryNumber, entry]
  exact congrArg toString same

private theorem entryOfWord?_entryNumber (fits : c.EntryFits) :
    entryOfWord? (toString c.entryNumber).toList = some c.entry := by
  cases entry : c.entry with
  | none =>
    rw [entryNumber, entry]
    rfl
  | some adr =>
    rw [toString_entryNumber entry (fits adr entry), entryOfWord?]
    · rw [numberOfWord?_toString, Option.map_some]
    · intro minus
      exact not_mem_toString (c := '-') rfl adr (minus ▸ mem_cons_self ..)

private theorem newline_not_mem_toString (i : Int) : '\n' ∉ (toString i).toList := by
  cases i with
  | ofNat n => exact not_mem_toString rfl n
  | negSucc n =>
    change '\n' ∉ ("-" ++ toString (n + 1)).toList
    rw [String.toList_append, mem_append, not_or]
    exact ⟨by decide, not_mem_toString rfl (n + 1)⟩

/-- The lines of an object file. -/
def objectLines (c : CodeBuffer) : List (List Char) :=
  ['M', 'J'] :: (toString c.pc).toList :: (toString c.dataSize).toList ::
    (toString c.entryNumber).toList :: c.instructions.map (·.text.toList)

private theorem objectText_toList (c : CodeBuffer) :
    c.objectText.toList = c.objectLines.flatMap (· ++ ['\n']) := by
  have lines (is : List Instruction) (text : String) :
      (is.foldl (fun text i => text ++ i.text ++ "\n") text).toList =
        text.toList ++ (is.map (·.text.toList)).flatMap (· ++ ['\n']) := by
    induction is generalizing text with
    | nil => simp
    | cons i is ih =>
      rw [foldl_cons, ih]
      simp
  have head : c.headText = "MJ\n" ++ toString c.pc ++ "\n" ++ toString c.dataSize ++ "\n" ++
      toString c.entryNumber ++ "\n" := rfl
  rw [objectText, lines, head]
  simp [objectLines]

private theorem objectLines_apart (c : CodeBuffer) : ∀ line ∈ c.objectLines, '\n' ∉ line := by
  simp only [objectLines, forall_mem_cons, forall_mem_map]
  exact ⟨by decide, not_mem_toString rfl _, not_mem_toString rfl _, newline_not_mem_toString _,
    fun i _ => i.newline_not_mem_text⟩

private theorem splitOn_objectText (c : CodeBuffer) :
    c.objectText.toList.splitOn '\n' = c.objectLines ++ [[]] := by
  rw [objectText_toList, splitOn_ended c.objectLines_apart]

/-- The fourth line of an object file is the entry point, as a number of four bytes. -/
theorem getElem?_splitOn_objectText {adr : Nat} (entry : c.entry = some adr) :
    (c.objectText.toList.splitOn '\n')[3]? = some (toString (Int32.ofNat adr).toInt).toList := by
  have number : c.entryNumber = (Int32.ofNat adr).toInt := by rw [entryNumber, entry]
  rw [splitOn_objectText, ← number]
  rfl

/-- Reading an object file yields the code that it was written for. Offsets that are too far are not
stated there. -/
theorem ofObjectText?_objectText (fits : c.EntryFits) :
    ofObjectText? c.objectText = some { c with farOffsets := 0 } := by
  have lines := mapM_read fun i (_ : i ∈ c.instructions) => i.bytesOfLine?_text
  have bytes : (c.instructions.map Instruction.allBytes).flatten = c.bytes.toList := by
    rw [← flatMap_def]
    exact Instruction.flatMap_decode _
  rw [ofObjectText?, splitOn_objectText]
  simp only [objectLines, cons_append, dropLast_concat, lines, numberOfWord?_toString,
    entryOfWord?_entryNumber fits, Option.bind_eq_bind, Option.bind_some, bytes, pc,
    Array.length_toList, if_true, Array.toArray_toList]
  rfl

/-- An object file determines the code, with any bytes, the number of global variables and the entry
point, as long as that is an address below `2 ^ 31`. There is a reader that recovers them. -/
theorem objectText_determines :
    (∀ c : CodeBuffer, c.EntryFits →
      ∃ read, ofObjectText? c.objectText = some read ∧ read.bytes = c.bytes ∧
        read.dataSize = c.dataSize ∧ read.entry = c.entry) ∧
    ∀ c c' : CodeBuffer, c.EntryFits → c'.EntryFits → c.objectText = c'.objectText →
      c.bytes = c'.bytes ∧ c.dataSize = c'.dataSize ∧ c.entry = c'.entry := by
  constructor
  · intro c fits
    exact ⟨_, ofObjectText?_objectText fits, rfl, rfl, rfl⟩
  · intro c c' fits fits' same
    have read := ofObjectText?_objectText fits
    rw [same, ofObjectText?_objectText fits', Option.some.injEq, CodeBuffer.mk.injEq] at read
    obtain ⟨bytes, entry, dataSize, _⟩ := read
    exact ⟨bytes.symm, dataSize.symm, entry.symm⟩

/-- Two bytes that are no opcodes, and a constant that lacks half of its operand. -/
def brokenOff : CodeBuffer := { bytes := #[0, 200, 22, 1, 2], entry := some 3, dataSize := 7 }

theorem objectText_determines_brokenOff :
    brokenOff.EntryFits ∧ brokenOff.objectText = "MJ\n5\n7\n3\n?0\n?200\nconst 1 2\n" ∧
    (∃ read, ofObjectText? brokenOff.objectText = some read ∧ read.bytes = brokenOff.bytes ∧
      read.dataSize = 7 ∧ read.entry = some 3) ∧
    ∀ c : CodeBuffer, c.EntryFits → c.objectText = brokenOff.objectText → c.bytes = brokenOff.bytes := by
  have fits : brokenOff.EntryFits := by decide
  refine ⟨fits, by decide +kernel, objectText_determines.1 brokenOff fits, ?_⟩
  intro c entry same
  exact (objectText_determines.2 c brokenOff entry fits same).1

end CodeBuffer

end MicroJava

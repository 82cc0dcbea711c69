import MicroJava.Code.Instruction

/-! # Decoding splits every byte string

The decoder takes a first byte and the operand bytes that it asks for, as far as they are there, and
goes on behind them (`decode_cons`). The instructions have the bytes of the string in order, stand
one behind the other and lack operand bytes only at the end. So code can be decoded in parts that end
with complete instructions.
-/

namespace MicroJava.Instruction

open List

/-- The bytes of an instruction as they stand in the code. -/
def allBytes (i : Instruction) : List UInt8 := i.code :: i.bytes

/-- The same instruction, found further behind. -/
def shift (distance : Nat) (i : Instruction) : Instruction := { i with addr := distance + i.addr }

/-- The number of operand bytes that a first byte asks for. -/
def operandCount (code : UInt8) : Nat := ((Opcode.ofByte? code).map Opcode.operandBytes).getD 0

/-- The instruction at the beginning of a byte string. -/
def leading (code : UInt8) (rest : List UInt8) : Instruction :=
  ⟨0, code, rest.take (operandCount code)⟩

variable {i : Instruction} {front back : List Instruction} {code : UInt8} {bytes rest : List UInt8}
  {fuel adr : Nat} {done : Array Instruction}

@[simp] theorem shift_length : (i.shift adr).length = i.length := rfl

@[simp] theorem shift_comp_shift (distance : Nat) :
    shift adr ∘ shift distance = shift (adr + distance) := by
  funext i
  simp [shift, Nat.add_assoc]

@[simp] theorem shift_zero : shift 0 = id := by
  funext i
  simp [shift]

/-- No operand byte is missing exactly if enough bytes follow the first one. -/
theorem isComplete_leading : (leading code rest).isComplete ↔ operandCount code ≤ rest.length := by
  simp only [isComplete, op?, leading, operandCount, length, Opcode.size]
  cases Opcode.ofByte? code with
  | none => simp
  | some op =>
    simp only [Option.map_some, Option.getD_some, length_take, beq_iff_eq]
    omega

/-- Induction along the instructions of a byte string. -/
theorem leadingInduction {motive : List UInt8 → Prop} (nil : motive [])
    (cons : ∀ code rest, motive (rest.drop (operandCount code)) → motive (code :: rest))
    (bytes : List UInt8) : motive bytes := by
  induction size : bytes.length using Nat.strongRecOn generalizing bytes with
  | ind size ih =>
    cases bytes with
    | nil => exact nil
    | cons code rest =>
      refine cons code rest (ih _ ?_ _ rfl)
      rw [← size, length_drop, length_cons]
      omega

private theorem decodeFrom_cons : decodeFrom (fuel + 1) adr (code :: rest) done =
    decodeFrom fuel (adr + (leading code rest).length) (rest.drop (operandCount code))
      (done.push ((leading code rest).shift adr)) := by
  simp [decodeFrom, leading, operandCount, shift, length, Nat.add_assoc]

/-- Enough steps add all instructions of a byte string, wherever it begins. -/
theorem toList_decodeFrom (enough : bytes.length ≤ fuel) :
    (decodeFrom fuel adr bytes done).toList = done.toList ++ (decode bytes).map (shift adr) := by
  induction bytes using leadingInduction generalizing fuel adr done with
  | nil => cases fuel <;> simp [decode, decodeFrom]
  | cons code rest ih =>
    have fewer : (rest.drop (operandCount code)).length ≤ rest.length := by simp
    cases fuel with
    | zero => simp at enough
    | succ fuel =>
      have enough := Nat.le_trans fewer (Nat.le_of_succ_le_succ enough)
      rw [decode, length_cons, decodeFrom_cons, decodeFrom_cons, ih enough, ih fewer]
      simp

@[simp] theorem decode_nil : decode [] = [] := rfl

/-- Behind the first instruction, decoding goes on as at the beginning. -/
theorem decode_cons (code : UInt8) (rest : List UInt8) : decode (code :: rest) =
    leading code rest ::
      (decode (rest.drop (operandCount code))).map (shift (leading code rest).length) := by
  rw [decode, length_cons, decodeFrom_cons, toList_decodeFrom (by simp)]
  simp

/-- The instructions have all the bytes, in order. -/
theorem flatMap_decode (bytes : List UInt8) : (decode bytes).flatMap allBytes = bytes := by
  induction bytes using leadingInduction with
  | nil => rfl
  | cons code rest ih =>
    have same (distance : Nat) : (fun i => allBytes (shift distance i)) = allBytes := rfl
    rw [decode_cons, flatMap_cons, flatMap_map, same, ih]
    simp [allBytes, leading]

/-- An instruction stands behind those that are decoded before it. -/
theorem addr_decode (found : decode bytes = front ++ i :: back) :
    i.addr = front.foldr (·.length + ·) 0 := by
  induction bytes using leadingInduction generalizing front i back with
  | nil => simp at found
  | cons code rest ih =>
    rw [decode_cons] at found
    cases front with
    | nil =>
      obtain ⟨rfl, _⟩ := cons.inj found
      rfl
    | cons j front =>
      obtain ⟨rfl, later⟩ := cons.inj found
      obtain ⟨front, tail, split, rfl, behind⟩ := map_eq_append_iff.mp later
      obtain ⟨i, back, rfl, rfl, _⟩ := map_eq_cons_iff.mp behind
      change _ + i.addr = _
      simp [ih split, foldr_map]

/-- Operand bytes are missing at the end only. -/
theorem isComplete_dropLast (member : i ∈ (decode bytes).dropLast) : i.isComplete := by
  induction bytes using leadingInduction generalizing i with
  | nil => simp at member
  | cons code rest ih =>
    rw [decode_cons] at member
    cases behind : decode (rest.drop (operandCount code)) with
    | nil => simp [behind] at member
    | cons j js =>
      -- Something is left behind the operand bytes, so none of them is missing.
      have enough : operandCount code ≤ rest.length := by
        refine Nat.le_of_not_lt fun short => ?_
        simp [drop_eq_nil_of_le (Nat.le_of_lt short)] at behind
      rw [dropLast_cons_of_ne_nil (by simp [behind]), mem_cons, ← map_dropLast, mem_map] at member
      obtain rfl | ⟨k, among, rfl⟩ := member
      · exact isComplete_leading.mpr enough
      · exact (ih among :)

/-- Decoding goes on behind complete instructions as at the beginning. -/
theorem decode_append (complete : ∀ i ∈ decode bytes, i.isComplete) (more : List UInt8) :
    decode (bytes ++ more) = decode bytes ++ (decode more).map (shift bytes.length) := by
  induction bytes using leadingInduction with
  | nil => simp
  | cons code rest ih =>
    rw [decode_cons, forall_mem_cons, forall_mem_map, isComplete_leading] at complete
    obtain ⟨enough, complete⟩ := complete
    have same : leading code (rest ++ more) = leading code rest := by
      rw [leading, leading, take_append_of_le_length enough]
    have size : (leading code rest).length + (rest.drop (operandCount code)).length =
        (code :: rest).length := by
      simp only [leading, length, length_take, length_drop, length_cons]
      omega
    rw [cons_append, decode_cons, decode_cons, same, drop_append_of_le_length enough, ih complete,
      map_append, map_map, shift_comp_shift, size, cons_append]

/-- Decoding partitions any byte string. The instructions have its bytes in order, each begins where
those before it end, and all but the last are complete. A string whose instructions are complete is
decoded apart from what follows it. -/
theorem decode_partitions (bytes : List UInt8) :
    (decode bytes).flatMap allBytes = bytes ∧
    (∀ front i back, decode bytes = front ++ i :: back → i.addr = front.foldr (·.length + ·) 0) ∧
    (∀ i ∈ (decode bytes).dropLast, i.isComplete) ∧
    ∀ more, (∀ i ∈ decode bytes, i.isComplete) →
      decode (bytes ++ more) = decode bytes ++ (decode more).map (shift bytes.length) :=
  ⟨flatMap_decode bytes, fun _ _ _ => addr_decode, fun _ => isComplete_dropLast,
    fun more complete => decode_append complete more⟩

/-- Behind a complete instruction and a byte that is no opcode, a call that is broken off. -/
theorem decode_partitions_brokenOff :
    (∀ i ∈ decode [31, 2, 255, 200], i.isComplete) ∧
    decode ([31, 2, 255, 200] ++ [49, 0]) =
      decode [31, 2, 255, 200] ++ (decode [49, 0]).map (shift 4) ∧
    ∃ call, decode [31, 2, 255, 200, 49, 0] = [⟨0, 31, [2, 255]⟩, ⟨3, 200, []⟩, call] ∧
      call.addr = 4 ∧ call.isComplete = false ∧ call.allBytes = [49, 0] := by
  have complete : ∀ i ∈ decode [31, 2, 255, 200], i.isComplete := by decide
  obtain ⟨_, addrs, _, _⟩ := decode_partitions [31, 2, 255, 200, 49, 0]
  refine ⟨complete, (decode_partitions _).2.2.2 _ complete, ⟨4, 49, [0]⟩, by decide, ?_, rfl, rfl⟩
  exact addrs [⟨0, 31, [2, 255]⟩, ⟨3, 200, []⟩] _ [] (by decide)

end MicroJava.Instruction

import MicroJava.CommandLine.Settings.Layout
import MicroJava.Limits

/-! # Settings files

A reader for plain settings files: each setting names a limit and states its value, a natural number,
and no limit may be set twice.
-/

namespace MicroJava.Settings

/-- The value of a digit; letters follow the ten decimal digits. -/
def digit? (c : Char) : Option Nat :=
  if c.isDigit then some (c.toNat - '0'.toNat)
  else if c.isLower then some (c.toNat - 'a'.toNat + 10)
  else if c.isUpper then some (c.toNat - 'A'.toNat + 10)
  else none

/-- The number that digits of a base stand for. -/
def ofDigits? (base : Nat) (digits : List Char) : Option Nat :=
  if digits = [] then none
  else
    digits.foldlM
      (fun n c => do
        let d ← digit? c
        if d < base then some (base * n + d) else none)
      0

/-- The natural number that a text stands for. It is decimal, or begins with `0x`, `0o` or `0b` for
the bases 16, 8 and 2, and may have a plus sign. A decimal number of several digits does not begin
with zero. -/
def natural? (text : List Char) : Option Nat :=
  match if text.head? = some '+' then text.drop 1 else text with
  | '0' :: 'x' :: digits => ofDigits? 16 digits
  | '0' :: 'o' :: digits => ofDigits? 8 digits
  | '0' :: 'b' :: digits => ofDigits? 2 digits
  | '0' :: _ :: _ => none
  | digits => ofDigits? 10 digits

/-- Applies settings one after the other. `seen` are the limits that were already set. -/
def applyAll (limits : Limits) (seen : List Limit) : List Entry → Option Limits
  | [] => some limits
  | entry :: rest => do
    let limit ← Limit.ofName? entry.name
    let value ← natural? entry.value
    if limit ∈ seen then none
    else applyAll (limits.set value limit) (limit :: seen) rest

/-- The limits that a settings file states. -/
def decode (text : List Char) : Except String Limits :=
  match (entries text).bind (applyAll .supported []) with
  | some limits => .ok limits
  | none => .error "not a list of settings"

end MicroJava.Settings

/-! # Places in a text

Lines and columns count from one, and both count characters. Only `\n` ends a line.
-/

namespace MicroJava

/-- The place of a character in a text. -/
structure Position where
  line : Nat
  col : Nat
deriving DecidableEq, Repr, Inhabited

namespace Position

/-- The place of the first character. -/
def start : Position := ⟨1, 1⟩

/-- The place that follows a character. -/
def next (p : Position) (c : Char) : Position :=
  if c = '\n' then ⟨p.line + 1, 1⟩ else ⟨p.line, p.col + 1⟩

/-- The place that follows a whole text. -/
def after (p : Position) (text : List Char) : Position :=
  text.foldl next p

@[simp]
theorem after_nil (p : Position) : p.after [] = p := rfl

@[simp]
theorem after_cons (p : Position) (c : Char) (text : List Char) :
    p.after (c :: text) = (p.next c).after text := rfl

theorem after_append (p : Position) (first second : List Char) :
    p.after (first ++ second) = (p.after first).after second := by
  simp [after, List.foldl_append]

end Position

/-- A reader that stands on one character of a text at a time.

Before the first `bump` it stands on no character, in column zero. While it stands on a line end,
its line is already the next one and its column is zero. -/
structure Cursor where
  /-- The character under the cursor, if there is one. -/
  current : Option Char := none
  line : Nat := 1
  col : Nat := 0
  /-- Whether the cursor has moved past the last character. -/
  atEnd : Bool := false
  /-- The characters after the cursor. -/
  rest : List Char
deriving DecidableEq, Repr

namespace Cursor

/-- A cursor before the first character. -/
def ofText (text : List Char) : Cursor := { rest := text }

/-- Moves to the next character. The first move past the last character also advances the column;
further ones change nothing. -/
def bump (cursor : Cursor) : Cursor :=
  match cursor.rest with
  | '\n' :: rest => { cursor with current := some '\n', line := cursor.line + 1, col := 0, rest }
  | c :: rest => { cursor with current := some c, col := cursor.col + 1, rest }
  | [] =>
    if cursor.atEnd then cursor
    else { cursor with current := none, col := cursor.col + 1, atEnd := true }

end Cursor

end MicroJava

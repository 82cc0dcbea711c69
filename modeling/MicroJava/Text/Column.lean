/-! # Columns of text

Fields of tables and listings are filled up with blanks to a width in characters. Longer texts are
not cut.
-/

namespace MicroJava.Text

/-- As many blanks as `text` lacks to the width. -/
def filler (width : Nat) (text : String) : String :=
  String.ofList (List.replicate (width - text.length) ' ')

/-- The text at the right end of a column. -/
def alignRight (width : Nat) (text : String) : String := filler width text ++ text

/-- The text at the left end of a column. -/
def alignLeft (width : Nat) (text : String) : String := text ++ filler width text

end MicroJava.Text

/-! # Splitting a text

Texts are split at every character of some class, so there is always one part more than such
characters. Parts can be freed of spaces at their ends.
-/

namespace MicroJava.Text

/-- The parts of a text between the characters that satisfy `separates`. -/
def splitWhen (separates : Char → Bool) : List Char → List (List Char)
  | [] => [[]]
  | c :: rest =>
    if separates c then [] :: splitWhen separates rest
    else
      match splitWhen separates rest with
      | [] => [[c]]
      | part :: parts => (c :: part) :: parts

/-- Whether a character is a space within a line: a blank or a tab. -/
def isSpace (c : Char) : Bool := c == ' ' || c == '\t'

/-- A text without spaces at its end. -/
def trimEnd (text : List Char) : List Char := (text.reverse.dropWhile isSpace).reverse

/-- A text without spaces at both ends. -/
def trim (text : List Char) : List Char := trimEnd (text.dropWhile isSpace)

end MicroJava.Text

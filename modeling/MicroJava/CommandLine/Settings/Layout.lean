import MicroJava.Text.Split

/-! # The layout of settings files

A settings file has a line for each setting: a name, a colon and a value. All names stand in one
column. A value may also stand on a later line of its own, farther to the right than its name.
Blank lines and comments are ignored. A file without settings may consist of a pair of braces with
nothing between them.

Lines are indented by blanks. A tab among them is refused, except between braces and on blank lines
and comments that directly follow a setting, where it has to stand to the right of the names.
-/

namespace MicroJava.Settings

/-- A name and the value that a file states for it, as they are written. -/
structure Entry where
  name : String
  value : List Char
deriving DecidableEq, Repr

/-! ## Lines -/

/-- Whether a character may occur in a settings file. Control characters are excluded, apart from
tabs and line ends. -/
def isAllowed (c : Char) : Bool :=
  let n := c.toNat
  n == 0x9 || n == 0xa || n == 0xd || (0x20 ≤ n && n ≤ 0x7e) || n == 0x85 ||
    (0xa0 ≤ n && n ≤ 0xfffd) || 0x10000 ≤ n

/-- Whether a character ends a line. Of two such characters in a row, the second one ends a blank
line. -/
def isLineEnd (c : Char) : Bool :=
  c == '\n' || c == '\r' || c == '\u0085' || c == '\u2028' || c == '\u2029'

/-- The lines of a file. A byte order mark at the beginning counts as a blank. -/
def lines : List Char → List (List Char)
  | '\ufeff' :: text => Text.splitWhen isLineEnd (' ' :: text)
  | text => Text.splitWhen isLineEnd text

/-- What stands before the comment of a line, and whether there is a comment. It begins with `#`
and either begins the line or follows a space; `free` says so of the character that comes next. -/
def cutComment (free : Bool) : List Char → List Char × Bool
  | [] => ([], false)
  | c :: rest =>
    if c = '#' ∧ free then ([], true)
    else
      let (text, comment) := cutComment (Text.isSpace c) rest
      (c :: text, comment)

/-- A line of a settings file. -/
structure Line where
  /-- How many blanks the line begins with. -/
  column : Nat
  /-- Whether a tab follows them. -/
  tabbed : Bool
  /-- What the line says, without comment and outer spaces. -/
  text : List Char
  /-- Whether the line ends with a comment. -/
  comment : Bool
deriving DecidableEq, Repr

/-- A line from its characters. -/
def Line.ofText (line : List Char) : Line :=
  let (text, comment) := cutComment true line
  let (blanks, rest) := line.span (· == ' ')
  { column := blanks.length, tabbed := rest.head? == some '\t', text := Text.trim text, comment }

/-- Splits a setting at the first colon that ends it or has a space after it. -/
def cutColon : List Char → Option (List Char × List Char)
  | [] => none
  | [':'] => some ([], [])
  | ':' :: ' ' :: rest => some ([], rest)
  | ':' :: '\t' :: rest => some ([], rest)
  | c :: rest => (cutColon rest).map fun (name, value) => (c :: name, value)

/-- How many characters may stand before the colon of a setting. -/
def maxNameLength : Nat := 1024

/-! ## Files -/

/-- How far some lines of a file have led. -/
inductive Stage where
  /-- Nothing was said yet. -/
  | start
  /-- The name in the given column still lacks its value. -/
  | named (column : Nat) (name : String)
  /-- The last thing said was a setting with its name in the given column; `comment` tells whether
  a comment followed it. -/
  | settled (column : Nat) (comment : Bool)
  /-- A brace is open. -/
  | braces
  /-- The brace was closed. -/
  | finished
deriving DecidableEq, Repr

namespace Stage

/-- Whether a tab may follow `column` blanks at the beginning of the next line. -/
def allowsTab (stage : Stage) (column : Nat) : Bool :=
  match stage with
  | settled names false => names < column
  | _ => false

/-- What a line leads to that says nothing. -/
def pass (stage : Stage) (comment : Bool) : Stage :=
  match stage with
  | settled column before => settled column (before || comment)
  | stage => stage

/-- What a line leads to on which a brace is open: nothing but the closing brace and comments may
follow. -/
def closeBraces (line : List Char) : Option Stage :=
  match line.dropWhile Text.isSpace with
  | [] | '#' :: _ => some .braces
  | '}' :: rest =>
    match rest.dropWhile Text.isSpace with
    | [] | '#' :: _ => some .finished
    | _ => none
  | _ => none

/-- What a line with a name and a colon leads to, with the setting if its value is there too. -/
def setting (line : Line) : Option (Stage × Option Entry) := do
  let (before, value) ← cutColon line.text
  let name := String.ofList (Text.trimEnd before)
  let value := Text.trim value
  if maxNameLength < before.length then none
  else if value = [] then some (.named line.column name, none)
  else some (.settled line.column line.comment, some ⟨name, value⟩)

/-- What a line that says something leads to. `raw` are all its characters after the blanks. -/
def say (stage : Stage) (line : Line) (raw : List Char) : Option (Stage × Option Entry) :=
  match stage with
  | start =>
    match raw with
    | '{' :: rest => (closeBraces rest).map (·, none)
    | _ => setting line
  | named column name =>
    if column < line.column then some (.settled column line.comment, some ⟨name, line.text⟩)
    else none
  | settled column _ => if line.column = column then setting line else none
  | braces | finished => none

/-- What a line leads to, with the setting that it completes. -/
def next (stage : Stage) (raw : List Char) : Option (Stage × Option Entry) :=
  if stage = .braces then (closeBraces raw).map (·, none)
  else
    let line := Line.ofText raw
    if line.tabbed ∧ !stage.allowsTab line.column then none
    else if line.text = [] then some (stage.pass line.comment, none)
    else stage.say line (raw.drop line.column)

/-- Whether a file may end. -/
def mayEnd : Stage → Bool
  | named .. | braces => false
  | _ => true

/-- The settings that lines complete. -/
def read (stage : Stage) : List (List Char) → Option (List Entry)
  | [] => if stage.mayEnd then some [] else none
  | line :: rest => do
    let (stage, entry) ← stage.next line
    return entry.toList ++ (← stage.read rest)

end Stage

/-- The settings of a file, in order. -/
def entries (text : List Char) : Option (List Entry) :=
  if text.all isAllowed then Stage.read .start (lines text) else none

end MicroJava.Settings

import MicroJava.CommandLine.Host
import MicroJava.CommandLine.Settings

/-! # Files in memory

The plainest files that a run can work on: a root directory, which is the working directory too, and
whose subdirectories are those that its files need.
-/

namespace MicroJava

/-- The directories and the name that lead to a file. -/
abbrev TreePath := List String

/-- The root directory with the files below it. -/
structure FileTree where
  files : List (TreePath × ByteArray)

namespace FileTree

/-- The content of a file. -/
def get? (t : FileTree) (path : TreePath) : Option ByteArray := t.files.lookup path

/-- Whether a path leads to a directory. -/
def isDirectory (t : FileTree) (path : TreePath) : Bool :=
  path == [] || t.files.any fun (file, _) => path.isPrefixOf file && path != file

/-- Puts a file in place of what was there. -/
def insert (t : FileTree) (path : TreePath) (content : ByteArray) : FileTree :=
  if (t.get? path).isSome then
    ⟨t.files.map fun (file, old) => if file = path then (file, content) else (file, old)⟩
  else ⟨t.files ++ [(path, content)]⟩

/-- Follows one part of a path. Every part but the last has to lead to a directory. The root is its
own parent. -/
def follow (t : FileTree) (path : TreePath) (part : String) : Option TreePath :=
  if !t.isDirectory path then none
  else if part = "" ∨ part = "." then some path
  else if part = ".." then some path.dropLast
  else some (path ++ [part])

/-- Where a path as it is written leads. It begins at the root, with or without a slash. -/
def locate (t : FileTree) (path : String) : Option TreePath :=
  if path = "" then none
  else ((Text.splitWhen (· == '/') path.toList).map String.ofList).foldlM t.follow []

/-- The bytes of a file. -/
def read (t : FileTree) (path : String) : Except FileError ByteArray :=
  match t.locate path with
  | none => .error .notFound
  | some place =>
    match t.get? place with
    | some content => .ok content
    | none => .error (if t.isDirectory place then .isDirectory else .notFound)

/-- Where a file is created, and the tree with that file empty. The directory of the file has to be
there. -/
def create (t : FileTree) (path : String) : Except FileError (TreePath × FileTree) :=
  match t.locate path with
  | none => .error .notFound
  | some place =>
    if t.isDirectory place then .error .isDirectory else .ok (place, t.insert place .empty)

/-- Access to the files of a tree that is kept as a state. -/
def access : Host (StateM FileTree) where
  read path := return (← get).read path
  Handle := TreePath
  create path := do
    match (← get).create path with
    | .ok (place, t) =>
      set t
      return .ok place
    | .error e => return .error e
  write place text := do
    modify (·.insert place text.toUTF8)
    return .ok ()
  decode := Settings.decode

end FileTree

end MicroJava

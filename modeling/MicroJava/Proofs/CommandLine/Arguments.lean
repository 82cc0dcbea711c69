import MicroJava.CommandLine.Basic

/-! # Well-formed arguments

What a list of arguments may consist of, said without reading it: a command, one file, and options
with their values in any order, of which the last of each sort counts. `Invocation.ofArguments?`
accepts exactly these lists. The extension of a path is described by the parts of the path in the
same way.
-/

namespace MicroJava.CommandLine

open List

/-! ## Arguments -/

/-- The name of a command. -/
def Command.name : Command → String
  | .build => "build"
  | .lex => "lex"
  | .list => "list"

theorem Command.ofName?_eq_some_iff {name : String} {command : Command} :
    ofName? name = some command ↔ name = command.name := by
  constructor
  · intro found
    unfold ofName? at found
    split at found <;> cases found <;> rfl
  · rintro rfl
    cases command <;> rfl

/-- What may follow a command. -/
inductive Argument where
  | output (path : String)
  | settings (path : String)
  | file (path : String) (plain : path.toList.head? ≠ some '-')

namespace Argument

/-- How an argument is written. -/
def words : Argument → List String
  | output path => ["-o", path]
  | settings path => ["--config", path]
  | file path _ => [path]

def output? : Argument → Option String
  | output path => some path
  | _ => none

def settings? : Argument → Option String
  | settings path => some path
  | _ => none

def file? : Argument → Option String
  | file path _ => some path
  | _ => none

end Argument

/-- Whether a list of arguments asks for an invocation. -/
structure Invocation.IsGivenBy (i : Invocation) (args : List String) (parts : List Argument) :
    Prop where
  words : args = i.command.name :: parts.flatMap Argument.words
  file : parts.filterMap Argument.file? = [i.file]
  output : (parts.filterMap Argument.output?).getLast? = i.output
  settings : (parts.filterMap Argument.settings?).getLast? = i.settings

namespace Options

variable {o o' : Options} {args : List String} {parts : List Argument}

/-- The options with one more argument. There may be no second file. -/
def add (o : Options) : Argument → Option Options
  | .output path => some { o with output := some path }
  | .settings path => some { o with settings := some path }
  | .file path _ => if o.file.isNone then some { o with file := some path } else none

private theorem parse_file {path : String} (plain : path.toList.head? ≠ some '-')
    (rest : List String) :
    parse o (path :: rest) =
      if o.file.isNone then parse { o with file := some path } rest else none := by
  have notOutput : path ≠ "-o" := by
    rintro rfl
    exact plain rfl
  have notSettings : path ≠ "--config" := by
    rintro rfl
    exact plain rfl
  cases rest <;> simp [parse, plain, notOutput, notSettings]

private theorem parse_words (a : Argument) (rest : List String) :
    parse o (a.words ++ rest) = (o.add a).bind (parse · rest) := by
  cases a with
  | output path => rfl
  | settings path => simp [Argument.words, parse, add]
  | file path plain =>
    rw [Argument.words, singleton_append, parse_file plain, add]
    split <;> rfl

private theorem parse_flatMap (parts : List Argument) :
    parse o (parts.flatMap Argument.words) = parts.foldlM add o := by
  induction parts generalizing o with
  | nil => rfl
  | cons a parts ih =>
    rw [flatMap_cons, parse_words, foldlM_cons]
    exact congrArg _ (funext fun o => ih)

private theorem exists_parts (accepted : parse o args = some o') :
    ∃ parts : List Argument, args = parts.flatMap Argument.words := by
  fun_induction parse o args with
  | case1 => exact ⟨[], rfl⟩
  | case2 o path plain => exact ⟨[.file path plain.2], rfl⟩
  | case3 => cases accepted
  | case4 o value rest ih =>
    obtain ⟨parts, rfl⟩ := ih accepted
    exact ⟨.output value :: parts, rfl⟩
  | case5 o value rest _ ih =>
    obtain ⟨parts, rfl⟩ := ih accepted
    exact ⟨.settings value :: parts, rfl⟩
  | case6 o path value rest _ _ plain ih =>
    obtain ⟨parts, same⟩ := ih accepted
    exact ⟨.file path plain.2 :: parts, by rw [same]; rfl⟩
  | case7 => cases accepted

private theorem getLast?_cons_or {α : Type} (a : α) (l : List α) (x : Option α) :
    (a :: l).getLast?.or x = l.getLast?.or (some a) := by
  rw [getLast?_cons]
  cases l.getLast? <;> rfl

/-- The last option of each sort counts, and there is at most one file. -/
theorem foldlM_add : parts.foldlM add o = some o' ↔
    o.file.toList ++ parts.filterMap Argument.file? = o'.file.toList ∧
    (parts.filterMap Argument.output?).getLast?.or o.output = o'.output ∧
    (parts.filterMap Argument.settings?).getLast?.or o.settings = o'.settings := by
  induction parts generalizing o with
  | nil =>
    obtain ⟨file, output, settings⟩ := o
    obtain ⟨file', output', settings'⟩ := o'
    have files : file.toList = file'.toList ↔ file = file' := by
      cases file <;> cases file' <;> simp
    simp [files]
  | cons a parts ih =>
    rw [foldlM_cons]
    cases a with
    | output path =>
      simp only [filterMap_cons, Argument.file?, Argument.output?, Argument.settings?,
        getLast?_cons_or]
      exact ih
    | settings path =>
      simp only [filterMap_cons, Argument.file?, Argument.output?, Argument.settings?,
        getLast?_cons_or]
      exact ih
    | file path plain =>
      simp only [filterMap_cons, Argument.file?, Argument.output?, Argument.settings?]
      cases present : o.file with
      | none =>
        have added : o.add (.file path plain) = some { o with file := some path } := by
          simp [add, present]
        rw [added]
        exact ih
      | some other =>
        have refused : o.add (.file path plain) = none := by simp [add, present]
        rw [refused]
        cases o'.file <;> simp

end Options

/-- The arguments that are accepted are those that ask for an invocation. -/
theorem Invocation.ofArguments?_eq_some_iff {args : List String} {i : Invocation} :
    ofArguments? args = some i ↔ ∃ parts, i.IsGivenBy args parts := by
  constructor
  · intro accepted
    cases args with
    | nil => cases accepted
    | cons name args =>
      simp only [ofArguments?, Option.bind_eq_bind, Option.bind_eq_some_iff, Option.pure_def,
        Option.some.injEq] at accepted
      obtain ⟨command, named, options, parsed, file, found, rfl⟩ := accepted
      obtain ⟨parts, rfl⟩ := Options.exists_parts parsed
      rw [Options.parse_flatMap, Options.foldlM_add] at parsed
      refine ⟨parts, ?_, ?_, ?_, ?_⟩
      · rw [Command.ofName?_eq_some_iff.mp named]
      · simpa [found] using parsed.1
      · simpa using parsed.2.1
      · simpa using parsed.2.2
  · rintro ⟨parts, rfl, file, output, settings⟩
    have parsed : Options.parse {} (parts.flatMap Argument.words) =
        some ⟨some i.file, i.output, i.settings⟩ := by
      rw [Options.parse_flatMap, Options.foldlM_add]
      simp [file, output, settings]
    simp [ofArguments?, parsed, Command.ofName?_eq_some_iff.mpr rfl]

/-! ## Extensions -/

/-- Whether a path consists of a directory and a name in it. -/
structure EndsWith (path directory name : List Char) : Prop where
  append : path = directory ++ name
  plain : '/' ∉ name
  slash : ∀ c ∈ directory.getLast?, c = '/'

/-- Whether a path is another one with the extension of its last part replaced. If that part has no
dot behind its first character, the extension is added. -/
inductive ReplacesExtension (path extension : String) : String → Prop where
  | replace {directory stem old : List Char}
      (ends : EndsWith path.toList directory (stem ++ '.' :: old)) (nonempty : stem ≠ [])
      (last : '.' ∉ old) :
      ReplacesExtension path extension (String.ofList (directory ++ stem) ++ "." ++ extension)
  | add {directory name : List Char} (ends : EndsWith path.toList directory name)
      (none : '.' ∉ name.tail) : ReplacesExtension path extension (path ++ "." ++ extension)

variable {c : Char} {text path directory name stem old : List Char}

private theorem exists_last (member : c ∈ text) :
    ∃ front back, text = front ++ c :: back ∧ c ∉ back := by
  obtain ⟨back, front, reversed, none⟩ :=
    eq_append_cons_of_mem (mem_reverse.mpr member)
  refine ⟨front.reverse, back.reverse, ?_, by simpa using none⟩
  rw [← reverse_reverse text, reversed]
  simp

private theorem exists_endsWith (path : List Char) :
    ∃ directory name, EndsWith path directory name := by
  by_cases slash : '/' ∈ path
  · obtain ⟨front, back, rfl, none⟩ := exists_last slash
    exact ⟨front ++ ['/'], back, by simp, none, by simp⟩
  · exact ⟨[], path, rfl, slash, by simp⟩

private theorem dropWhile_reverse (none : c ∉ old) (back : List Char) :
    (old.reverse ++ back).dropWhile (· ≠ c) = back.dropWhile (· ≠ c) := by
  apply dropWhile_append_of_pos
  intro other member
  have different : other ≠ c := by
    rintro rfl
    exact none (mem_reverse.mp member)
  simp [different]

/-- The name is what is read from the end of a path up to a slash. -/
theorem EndsWith.takeWhile (ends : EndsWith path directory name) :
    path.reverse.takeWhile (· ≠ '/') = name.reverse := by
  have others : ∀ c ∈ name.reverse, decide (c ≠ '/') = true := by
    intro c member
    have different : c ≠ '/' := by
      rintro rfl
      exact ends.plain (mem_reverse.mp member)
    simp [different]
  rw [ends.append, reverse_append, takeWhile_append_of_pos others]
  cases reversed : directory.reverse with
  | nil => simp
  | cons c more =>
    have last : directory.getLast? = some c := by
      rw [← head?_reverse, reversed, head?_cons]
    simp [ends.slash c last]

private theorem stem_replace (last : '.' ∉ old) :
    ((stem ++ '.' :: old).reverse.dropWhile (· ≠ '.')).drop 1 = stem.reverse := by
  rw [reverse_append, reverse_cons, append_assoc, dropWhile_reverse last]
  simp

private theorem stem_add (none : '.' ∉ name.tail) :
    (name.reverse.dropWhile (· ≠ '.')).drop 1 = [] := by
  cases name with
  | nil => rfl
  | cons c name =>
    rw [tail_cons] at none
    rw [reverse_cons, dropWhile_reverse none]
    by_cases dot : c = '.' <;> simp [dot]

theorem ReplacesExtension.eq {path extension result : String}
    (replaces : ReplacesExtension path extension result) :
    result = withExtension path extension := by
  cases replaces with
  | @replace directory stem old ends nonempty last =>
    have stems : stem.reverse ≠ [] := by simpa using nonempty
    have rest : path.toList.reverse.drop (stem ++ '.' :: old).reverse.length =
        directory.reverse := by
      rw [ends.append, @reverse_append _ directory, drop_left]
    simp only [withExtension, ends.takeWhile, stem_replace last, if_neg stems, rest]
    rw [← reverse_append, reverse_reverse]
  | add ends none =>
    simp only [withExtension, ends.takeWhile, stem_add none, if_true]
    rw [reverse_reverse, String.ofList_toList]

private theorem exists_replacesExtension (path extension : String) :
    ∃ result, ReplacesExtension path extension result := by
  obtain ⟨directory, name, ends⟩ := exists_endsWith path.toList
  by_cases dot : '.' ∈ name.tail
  · cases name with
    | nil => cases dot
    | cons c name =>
      obtain ⟨front, old, rfl, none⟩ := exists_last dot
      have nonempty : c :: front ≠ [] := cons_ne_nil c front
      exact ⟨_, .replace ends nonempty none⟩
  · exact ⟨_, .add ends dot⟩

theorem replacesExtension_iff {path extension result : String} :
    ReplacesExtension path extension result ↔ result = withExtension path extension := by
  constructor
  · exact ReplacesExtension.eq
  · rintro rfl
    obtain ⟨result, replaces⟩ := exists_replacesExtension path extension
    rwa [← replaces.eq]

end MicroJava.CommandLine

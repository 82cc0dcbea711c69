import MicroJava.Proofs.CommandLine.Arguments
import MicroJava.Proofs.Run.Source

/-! # Which files a run changes

Only `build` writes a file, and only after everything before that went well: the arguments, the
source, the settings and the compilation. Every other run leaves all files as they are. This holds
of every host that reads and creates files as `Host.Lawful` says, however it decodes settings.
-/

namespace MicroJava

/-! ## Hosts -/

/-- What can be seen of the files in a state of a host. -/
structure FileView (σ : Type) where
  /-- Where a file can be. -/
  Place : Type
  /-- Where a path leads. -/
  locate : σ → String → Option Place
  content : σ → Place → Option ByteArray

/-- Whether a path leads to a file with the given content. -/
def FileView.Holds {σ : Type} (view : FileView σ) (s : σ) (path : String) (bytes : ByteArray) : Prop :=
  ∃ place, view.locate s path = some place ∧ view.content s place = some bytes

theorem FileView.Holds.unique {σ : Type} {view : FileView σ} {s : σ} {path : String}
    {bytes bytes' : ByteArray} (first : view.Holds s path bytes)
    (second : view.Holds s path bytes') : bytes = bytes' := by
  obtain ⟨place, located, found⟩ := first
  obtain ⟨place', located', found'⟩ := second
  obtain rfl : place = place' := Option.some.inj (located.symm.trans located')
  exact Option.some.inj (found.symm.trans found')

namespace Host

variable {σ : Type} (host : Host (StateM σ))

/-- What a run relies on. -/
structure Lawful (view : FileView σ) : Prop where
  /-- Reading yields what a file holds and changes nothing. -/
  read : ∀ path s, ∃ result, (host.read path).run s = (result, s) ∧
    ∀ bytes, result = .ok bytes ↔ view.Holds s path bytes
  /-- Where nothing can be created, nothing changes. -/
  refused : ∀ {path s e s'}, (host.create path).run s = (.error e, s') → s' = s
  /-- Creating a file and writing to it changes no other file, and what is written is what the file
  then holds. -/
  created : ∀ {path s handle s'}, (host.create path).run s = (.ok handle, s') →
    ∃ place, view.locate s path = some place ∧ ∀ {text result s''},
      (host.write handle text).run s' = (result, s'') →
      (∀ other, other ≠ place → view.content s'' other = view.content s other) ∧
      (result = .ok () → view.content s'' place = some text.toUTF8)

/-- Whether a file can be created at a path. -/
def CanCreate (s : σ) (path : String) : Prop :=
  ∃ handle s', (host.create path).run s = (.ok handle, s')

/-- Whether everything can be written to every file that was created. -/
def Reliable : Prop :=
  ∀ ⦃path s handle s'⦄, (host.create path).run s = (.ok handle, s') →
    ∀ text, ∃ s'', (host.write handle text).run s' = (.ok (), s'')

end Host

namespace FileTree

private theorem lookup_map (files : List (TreePath × ByteArray)) (place other : TreePath)
    (content : ByteArray) :
    (files.map fun (file, old) => if file = place then (file, content) else (file, old)).lookup
      other = if other = place then (files.lookup other).map fun _ => content
        else files.lookup other := by
  induction files with
  | nil => simp
  | cons entry files ih =>
    obtain ⟨file, old⟩ := entry
    by_cases found : other = file
    · subst found
      by_cases same : other = place <;> simp [same]
    · have skipped (now : ByteArray) (rest : List (TreePath × ByteArray)) :
          ((file, now) :: rest).lookup other = rest.lookup other := by
        simp [List.lookup_cons, beq_false_of_ne found]
      rw [skipped, ← ih, List.map_cons]
      dsimp only
      split <;> exact skipped ..

/-- A file that is put in place is the only one that changes. -/
theorem get?_insert (t : FileTree) (place other : TreePath) (content : ByteArray) :
    (t.insert place content).get? other = if other = place then some content else t.get? other := by
  unfold insert
  split
  · next present =>
    rw [get?, lookup_map]
    split
    · next same =>
      obtain ⟨old, found⟩ := Option.isSome_iff_exists.mp present
      rw [get?, ← same] at found
      rw [found, Option.map_some]
    · rfl
  · next absent =>
    rw [get?, List.lookup_append]
    split
    · next same =>
      subst same
      have none : t.files.lookup other = none := Option.not_isSome_iff_eq_none.mp absent
      rw [none, List.lookup_cons_self]
      rfl
    · next different => simp [get?, List.lookup_cons, beq_false_of_ne different]

/-- The files of a tree. -/
def view : FileView FileTree := ⟨TreePath, locate, get?⟩

theorem read_eq_ok_iff {t : FileTree} {path : String} {bytes : ByteArray} :
    t.read path = .ok bytes ↔ view.Holds t path bytes := by
  unfold read FileView.Holds
  cases located : t.locate path with
  | none => simp [view, located]
  | some place => cases found : t.get? place <;> simp [view, located, found]

private theorem access_create (t : FileTree) (path : String) :
    (∃ place, t.locate path = some place ∧
      (access.create path).run t = (.ok place, t.insert place .empty)) ∨
    ∃ e, (access.create path).run t = (.error e, t) := by
  have refused {e : FileError} (failed : t.create path = .error e) :
      (access.create path).run t = (.error e, t) := by
    simp only [access, StateT.run_bind, StateT.run_get, pure_bind, failed]
    rfl
  cases located : t.locate path with
  | none => exact .inr ⟨.notFound, refused (by simp [create, located])⟩
  | some place =>
    cases directory : t.isDirectory place with
    | true => exact .inr ⟨.isDirectory, refused (by simp [create, located, directory])⟩
    | false =>
      have created : t.create path = .ok (place, t.insert place .empty) := by
        simp [create, located, directory]
      refine .inl ⟨place, rfl, ?_⟩
      simp only [access, StateT.run_bind, StateT.run_get, pure_bind, created]
      rfl

private theorem access_lawful : access.Lawful view where
  read path t := ⟨t.read path, rfl, fun _ => read_eq_ok_iff⟩
  refused := by
    intro path t e t' created
    rcases access_create t path with ⟨place, _, other⟩ | ⟨e', other⟩
    · rw [created] at other
      cases other
    · exact (Prod.mk.inj (created.symm.trans other)).2
  created := by
    intro path t handle t' created
    rcases access_create t path with ⟨place, located, other⟩ | ⟨e', other⟩
    · obtain ⟨same, rfl⟩ := Prod.mk.inj (created.symm.trans other)
      obtain rfl : place = handle := (Except.ok.inj same).symm
      refine ⟨place, located, ?_⟩
      rintro text result _ ⟨rfl, rfl⟩
      constructor
      · intro (other : TreePath) (different : other ≠ place)
        change ((t.insert place .empty).insert place text.toUTF8).get? other = t.get? other
        rw [get?_insert, if_neg different, get?_insert, if_neg different]
      · intro _
        exact (get?_insert _ _ _ _).trans (if_pos rfl)
    · rw [created] at other
      cases other

private theorem access_reliable : access.Reliable := fun _ _ _ _ _ _ => ⟨_, rfl⟩

end FileTree

namespace CommandLine

section

variable {σ : Type} (host : Host (StateM σ)) (view : FileView σ) (s : σ)

/-- Whether a file holds a text. -/
def HasText (path : String) (text : List Char) : Prop :=
  ∃ bytes content, view.Holds s path bytes ∧ String.fromUTF8? bytes = some content ∧
    content.toList = text

/-- Whether a settings file, if there is one, states limits that are supported. -/
inductive StatesLimits : Option String → Limits → Prop where
  | absent : StatesLimits none .supported
  | file {path text limits} (read : HasText view s path text)
      (decoded : host.decode text = .ok limits) (supported : limits.excess? = none) :
      StatesLimits (some path) limits

/-- Whether `build` has to write to a path. -/
inductive Invocation.WritesTo (i : Invocation) : String → Prop where
  | output {path} (given : i.output = some path) : WritesTo i path
  | extension {path} (none : i.output = none) (replaces : ReplacesExtension i.file "obj" path) :
      WritesTo i path

/-- Whether the source file of an invocation is compiled without diagnostics. -/
structure Invocation.Compiles (i : Invocation) (source : List Char) (limits : Limits)
    (code : CodeBuffer) : Prop where
  read : HasText view s i.file source
  settings : StatesLimits host view s i.settings limits
  compiled : Compilation.run limits source = .ok ⟨code, []⟩

/-- Whether everything is there to build code and to put it in a place: arguments that ask for it, a
source and settings that can be used, a compilation without diagnostics, and a path that leads to
where a file can be created. -/
inductive Builds (args : List String) : view.Place → CodeBuffer → Prop where
  | mk {i parts source limits code path place} (given : Invocation.IsGivenBy i args parts)
      (command : i.command = .build) (compiles : i.Compiles host view s source limits code)
      (target : i.WritesTo path) (located : view.locate s path = some place)
      (creatable : host.CanCreate s path) : Builds args place code

end

/-! ## Reading -/

variable {σ α β : Type} {s after : σ} {x : Run (StateM σ) α} {p : α → Prop}
  {f : α → Run (StateM σ) β} {outcome : Outcome} {path : String} {text : List Char}
  {view : FileView σ} {host : Host (StateM σ)}

theorem HasText.unique {other : List Char} (first : HasText view s path text)
    (second : HasText view s path other) : text = other := by
  obtain ⟨bytes, content, holds, decoded, rfl⟩ := first
  obtain ⟨bytes', content', holds', decoded', rfl⟩ := second
  rw [← holds.unique holds', decoded, Option.some.injEq] at decoded'
  rw [decoded']

theorem StatesLimits.unique {settings : Option String} {limits other : Limits}
    (first : StatesLimits host view s settings limits)
    (second : StatesLimits host view s settings other) : limits = other := by
  cases first with
  | absent =>
    cases second
    rfl
  | file read decoded _ =>
    cases second with
    | file read' decoded' _ =>
      rw [← read.unique read', decoded, Except.ok.injEq] at decoded'
      exact decoded'

theorem StatesLimits.supported {settings : Option String} {limits : Limits}
    (states : StatesLimits host view s settings limits) : limits.excess? = none := by
  cases states with
  | absent => decide
  | file _ _ supported => exact supported

private theorem run_bind_ok {a : α} (first : x.run.run s = (.ok a, after)) :
    (x >>= f).run.run s = (f a).run.run after := by
  rw [ExceptT.run_bind, StateT.run_bind, first]
  rfl

private theorem run_bind_error (first : x.run.run s = (.error outcome, after)) :
    (x >>= f).run.run s = (.error outcome, after) := by
  rw [ExceptT.run_bind, StateT.run_bind, first]
  rfl

/-- Whether a run changes no file and ends with what has a property, or else is given up with an exit
code that says so. -/
def Decides (x : Run (StateM σ) α) (s : σ) (p : α → Prop) : Prop :=
  ∃ result, x.run.run s = (result, s) ∧ (∀ a, result = .ok a ↔ p a) ∧
    ∀ outcome, result = .error outcome → outcome.exitCode ≠ 0

theorem Decides.of_unique {a : α} (ran : x.run.run s = (.ok a, s)) (holds : p a)
    (unique : ∀ {b}, p b → a = b) : Decides x s p := by
  refine ⟨.ok a, ran, fun b => ⟨?_, fun other => ?_⟩, by simp⟩
  · rintro ⟨⟩
    exact holds
  · rw [unique other]

theorem Decides.of_error (ran : x.run.run s = (.error outcome, s)) (failing : outcome.exitCode ≠ 0)
    (none : ∀ a, ¬ p a) : Decides x s p := by
  refine ⟨.error outcome, ran, ?_, ?_⟩
  · intro a
    simp [none a]
  · rintro _ ⟨⟩
    exact failing

theorem Decides.fail {failure : Failure} (none : ∀ a, ¬ p a) : Decides (fail failure) s p :=
  .of_error rfl Nat.one_ne_zero none

/-- A run goes on with what the first part of it ends with. -/
theorem Decides.bind {q : β → Prop} (first : Decides x s p) (needs : ∀ b, q b → ∃ a, p a)
    (next : ∀ a, p a → Decides (f a) s q) : Decides (x >>= f) s q := by
  obtain ⟨result, ran, decides, failing⟩ := first
  cases result with
  | error outcome =>
    apply Decides.of_error (run_bind_error ran)
    · exact failing outcome rfl
    · intro b holds
      obtain ⟨a, holds⟩ := needs b holds
      cases (decides a).mpr holds
  | ok a =>
    obtain ⟨result, ran', decides', failing'⟩ := next a ((decides a).mp rfl)
    exact ⟨result, (run_bind_ok ran).trans ran', decides', failing'⟩

private theorem run_lift {action : StateM σ α} {a : α} (ran : action.run s = (a, after)) :
    (liftM action : Run (StateM σ) α).run.run s = (.ok a, after) := by
  change (Except.ok <$> action).run s = _
  rw [StateT.run_map, ran]
  rfl

theorem require_decides {printed : String} (result : Except FileError α) :
    Decides (require path printed result) s (result = .ok ·) := by
  cases result with
  | ok a => exact .of_unique rfl rfl fun same => Except.ok.inj same
  | error e =>
    apply Decides.of_error rfl Nat.one_ne_zero
    intro a
    simp

section

variable (lawful : host.Lawful view) (s : σ)

include lawful

theorem readText_decides (path : String) :
    Decides (readText host path) s (HasText view s path) := by
  obtain ⟨result, ran, holds⟩ := lawful.read path s
  have reading : Decides (liftM (host.read path)) s (result = ·) := .of_unique (run_lift ran) rfl id
  apply reading.bind
  · exact fun _ _ => ⟨_, rfl⟩
  rintro _ rfl
  apply (require_decides result).bind
  · rintro text ⟨bytes, _, held, _⟩
    exact ⟨bytes, (holds bytes).mpr held⟩
  intro bytes read
  have held := (holds bytes).mp read
  cases decoded : String.fromUTF8? bytes with
  | none =>
    apply Decides.fail
    rintro text ⟨_, _, other, decoded', _⟩
    rw [held.unique other, decoded'] at decoded
    cases decoded
  | some content =>
    have hasText : HasText view s path content.toList := ⟨bytes, content, held, decoded, rfl⟩
    exact .of_unique rfl hasText hasText.unique

theorem readLimits_decides (settings : Option String) :
    Decides (readLimits host settings) s (StatesLimits host view s settings) := by
  cases settings with
  | none =>
    apply Decides.of_unique rfl .absent
    rintro limits ⟨⟩
    rfl
  | some path =>
    apply (readText_decides lawful s path).bind
    · intro limits states
      cases states with
      | file read _ _ => exact ⟨_, read⟩
    intro text read
    have same {limits : Limits} (states : StatesLimits host view s (some path) limits) :
        host.decode text = .ok limits ∧ limits.excess? = none := by
      cases states with
      | file read' decoded supported => exact ⟨read.unique read' ▸ decoded, supported⟩
    cases decoded : host.decode text with
    | error reason =>
      apply Decides.fail
      intro limits states
      rw [(same states).1] at decoded
      cases decoded
    | ok limits =>
      have unique {other : Limits} (states : StatesLimits host view s (some path) other) :
          limits = other := Except.ok.inj (decoded.symm.trans (same states).1)
      dsimp only
      cases excess : limits.excess? with
      | none => exact .of_unique rfl (.file read decoded excess) unique
      | some e =>
        apply Decides.fail
        intro other states
        have supported := (same states).2
        rw [← unique states, excess] at supported
        cases supported

/-! ## Compiling -/

theorem compileFile_decides (i : Invocation) : Decides (compileFile host i) s
    fun code => ∃ source limits, i.Compiles host view s source limits code := by
  apply (readText_decides lawful s i.file).bind
  · rintro code ⟨source, limits, compiles⟩
    exact ⟨source, compiles.read⟩
  intro source read
  apply (readLimits_decides lawful s i.settings).bind
  · rintro code ⟨source, limits, compiles⟩
    exact ⟨limits, compiles.settings⟩
  intro limits settings
  have same {source' limits' code} (compiles : i.Compiles host view s source' limits' code) :
      compile limits source = .ok code := by
    apply compile_eq_ok_iff.mpr
    rw [read.unique compiles.read, settings.unique compiles.settings]
    exact ⟨compiles.settings.supported, compiles.compiled⟩
  cases result : compile limits source with
  | ok code =>
    apply Decides.of_unique rfl ⟨source, limits, read, settings, (compile_eq_ok_iff.mp result).2⟩
    rintro code' ⟨_, _, compiles⟩
    exact Except.ok.inj (result.symm.trans (same compiles))
  | error e =>
    have none : ∀ code, ¬ ∃ source limits, i.Compiles host view s source limits code := by
      rintro code ⟨_, _, compiles⟩
      have compiled := same compiles
      rw [result] at compiled
      cases compiled
    cases e with
    | source diagnostics => exact .of_error rfl Nat.one_ne_zero none
    | limits e => exact .fail none
    | fault broken => exact .fail none

end

/-! ## Writing -/

theorem Invocation.writesTo_iff {i : Invocation} {path : String} :
    i.WritesTo path ↔ path = i.target := by
  unfold target
  constructor
  · intro writes
    cases writes with
    | output given => rw [given, Option.getD_some]
    | extension none replaces => rw [none, Option.getD_none, replaces.eq]
  · rintro rfl
    cases given : i.output with
    | some path => exact .output given
    | none => exact .extension given (replacesExtension_iff.mpr rfl)

variable {args : List String} {i : Invocation} {place : view.Place} {code : CodeBuffer}

theorem Builds.iff (accepted : Invocation.ofArguments? args = some i) :
    Builds host view s args place code ↔
      i.command = .build ∧ (∃ source limits, i.Compiles host view s source limits code) ∧
      view.locate s i.target = some place ∧ host.CanCreate s i.target := by
  constructor
  · intro builds
    cases builds with
    | mk given command compiles target located creatable =>
      rw [Invocation.ofArguments?_eq_some_iff.mpr ⟨_, given⟩, Option.some.injEq] at accepted
      subst accepted
      rw [Invocation.writesTo_iff.mp target] at located creatable
      exact ⟨command, ⟨_, _, compiles⟩, located, creatable⟩
  · rintro ⟨command, ⟨source, limits, compiles⟩, located, creatable⟩
    obtain ⟨parts, given⟩ := Invocation.ofArguments?_eq_some_iff.mp accepted
    exact .mk given command compiles (Invocation.writesTo_iff.mpr rfl) located creatable

/-- Whether a run ends with an outcome, early or not. -/
def Ends (x : Run (StateM σ) Outcome) (s : σ) (outcome : Outcome) (after : σ) : Prop :=
  x.run.run s = (.ok outcome, after) ∨ x.run.run s = (.error outcome, after)

private theorem run_eq (accepted : Invocation.ofArguments? args = some i)
    (performed : Ends (perform host i) s outcome after) :
    (run host args).run s = (outcome, after) := by
  simp only [run, accepted, StateT.run_bind]
  rcases performed with ended | ended <;> rw [ended] <;> rfl

/-- What is left of a run of `build` once the source is compiled. -/
def putObject (host : Host (StateM σ)) (target : String) (code : CodeBuffer) :
    Run (StateM σ) Outcome := do
  let handle ← require target noErrors (← host.create target)
  require target noErrors (← host.write handle code.objectText)
  return { exitCode := 0, printed := noErrors }

/-- Whether a run wrote a text to the place of a file and changed no other one, or failed to write
it, which happens in no reliable host. -/
def Wrote (host : Host (StateM σ)) (view : FileView σ) (s after : σ) (place : view.Place)
    (text : String) (exitCode : Nat) : Prop :=
  (∀ other, other ≠ place → view.content after other = view.content s other) ∧
    (exitCode = 0 ∧ view.content after place = some text.toUTF8 ∨ exitCode ≠ 0 ∧ ¬ host.Reliable)

private theorem putObject_files (lawful : host.Lawful view) (target : String) (code : CodeBuffer) :
    ∃ outcome after, Ends (putObject host target code) s outcome after ∧
      ((∃ place, view.locate s target = some place ∧ host.CanCreate s target ∧
          Wrote host view s after place code.objectText outcome.exitCode) ∨
        ¬ host.CanCreate s target ∧ after = s ∧ outcome.exitCode ≠ 0) := by
  generalize created : (host.create target).run s = result
  obtain ⟨result | handle, s'⟩ := result
  · have ended : (putObject host target code).run.run s =
        (.error (.failed (.file target result) noErrors), s') := by
      unfold putObject
      rw [run_bind_ok (run_lift created)]
      rfl
    refine ⟨_, s', .inr ended, .inr ⟨?_, lawful.refused created, Nat.one_ne_zero⟩⟩
    rintro ⟨_, _, other⟩
    rw [created] at other
    cases other
  · obtain ⟨place, located, written⟩ := lawful.created created
    generalize wrote : (host.write handle code.objectText).run s' = result
    have before : (putObject host target code).run.run s =
        ((require target noErrors result.1 : Run (StateM σ) Unit) >>= fun _ =>
          pure { exitCode := 0, printed := noErrors }).run.run result.2 := by
      unfold putObject
      rw [run_bind_ok (run_lift created)]
      have first : (require target noErrors (.ok handle) : Run (StateM σ) _).run.run s' =
        (.ok handle, s') := rfl
      rw [run_bind_ok first, run_bind_ok (run_lift wrote)]
    obtain ⟨others, holds⟩ := written wrote
    obtain ⟨e | ⟨⟩, s''⟩ := result
    · refine ⟨_, s'', .inr before, .inl ⟨place, located, ⟨_, _, created⟩, others, .inr ?_⟩⟩
      refine ⟨Nat.one_ne_zero, fun reliable => ?_⟩
      obtain ⟨_, other⟩ := reliable created code.objectText
      rw [wrote] at other
      cases other
    · exact ⟨_, s'', .inl before, .inl ⟨place, located, ⟨_, _, created⟩, others,
        .inl ⟨rfl, holds rfl⟩⟩⟩

/-- A run of `build` writes its object file or fails. -/
theorem build_files (lawful : host.Lawful view) (accepted : Invocation.ofArguments? args = some i)
    (build : i.command = .build) : ∃ outcome after,
      (run host args).run s = (outcome, after) ∧
      ((∃ place code, Builds host view s args place code ∧
          Wrote host view s after place code.objectText outcome.exitCode) ∨
        (∀ place code, ¬ Builds host view s args place code) ∧ after = s ∧
          outcome.exitCode ≠ 0) := by
  have performs : perform host i = compileFile host i >>= putObject host i.target := by
    simp only [perform, build]
    rfl
  obtain ⟨result, ran, decides, failing⟩ := compileFile_decides lawful s i
  cases result with
  | error outcome =>
    have stopped : (perform host i).run.run s = (.error outcome, s) := by
      rw [performs]
      exact run_bind_error ran
    refine ⟨outcome, s, run_eq accepted (.inr stopped), .inr ⟨?_, rfl, failing outcome rfl⟩⟩
    intro place code builds
    cases (decides code).mpr ((Builds.iff accepted).mp builds).2.1
  | ok code =>
    have compiles := (decides code).mp rfl
    obtain ⟨outcome, after, ended, result⟩ := putObject_files (s := s) lawful i.target code
    refine ⟨outcome, after, run_eq accepted ?_, ?_⟩
    · unfold Ends
      rwa [performs, run_bind_ok ran]
    · rcases result with ⟨place, located, creatable, wrote⟩ | ⟨refused, same, failing⟩
      · exact .inl ⟨place, code, (Builds.iff accepted).mpr ⟨build, compiles, located, creatable⟩, wrote⟩
      · refine .inr ⟨fun place code builds => ?_, same, failing⟩
        exact refused ((Builds.iff accepted).mp builds).2.2.2

/-- What only reads ends with some outcome. -/
theorem Decides.ends (decides : Decides x s p) (f : α → Outcome) :
    ∃ outcome, Ends (x >>= fun a => pure (f a)) s outcome s := by
  obtain ⟨result, ran, _, _⟩ := decides
  cases result with
  | ok a => exact ⟨f a, .inl (run_bind_ok ran)⟩
  | error outcome => exact ⟨outcome, .inr (run_bind_error ran)⟩

/-- The other commands only read. -/
theorem read_files (lawful : host.Lawful view) (accepted : Invocation.ofArguments? args = some i)
    (other : i.command ≠ .build) : ∃ outcome, (run host args).run s = (outcome, s) := by
  have performed : ∃ outcome, Ends (perform host i) s outcome s := by
    unfold perform
    cases command : i.command with
    | build => exact absurd command other
    | list => exact (compileFile_decides lawful s i).ends _
    | lex => exact (readText_decides lawful s i.file).ends _
  obtain ⟨outcome, ended⟩ := performed
  exact ⟨outcome, run_eq accepted ended⟩

/-- A run changes no file but the one that `build` writes. That one is written exactly if the
arguments, the source, the settings, the compilation and the path of the output are all in order; it
then holds the object file, and the run succeeds. Otherwise no file is changed, and `build` fails.
Writing what was created fails only in hosts that are not reliable, and then `build` fails too. -/
theorem run_files (lawful : host.Lawful view) (args : List String) (s : σ) : ∃ outcome after,
    (run host args).run s = (outcome, after) ∧
    ((∃ place code, Builds host view s args place code ∧
        Wrote host view s after place code.objectText outcome.exitCode) ∨
      (∀ place code, ¬ Builds host view s args place code) ∧ after = s ∧
        (args.head? = some "build" → outcome.exitCode ≠ 0)) := by
  cases accepted : Invocation.ofArguments? args with
  | none =>
    refine ⟨.misused, s, ?_, .inr ⟨?_, rfl, fun _ => by decide⟩⟩
    · simp only [run, accepted]
      rfl
    · rintro place code ⟨given⟩
      rw [Invocation.ofArguments?_eq_some_iff.mpr ⟨_, given⟩] at accepted
      cases accepted
  | some i =>
    by_cases build : i.command = .build
    · obtain ⟨outcome, after, ran, written | ⟨refused, same, failing⟩⟩ :=
        build_files (s := s) lawful accepted build
      · exact ⟨outcome, after, ran, .inl written⟩
      · exact ⟨outcome, after, ran, .inr ⟨refused, same, fun _ => failing⟩⟩
    · obtain ⟨outcome, ran⟩ := read_files (s := s) lawful accepted build
      refine ⟨outcome, s, ran, .inr ⟨?_, rfl, fun named => ?_⟩⟩
      · intro place code builds
        exact build ((Builds.iff accepted).mp builds).1
      · obtain ⟨parts, given⟩ := Invocation.ofArguments?_eq_some_iff.mp accepted
        rw [given.words, List.head?_cons, Option.some.injEq] at named
        have command := Command.ofName?_eq_some_iff.mpr named.symm
        exact absurd (Option.some.inj command).symm build

/-- Arguments that ask for a build with the settings of a file. -/
def buildArgs : List String := ["build", "p.mj", "--config", "limits.yaml"]

/-- The files that the arguments name. The settings lower one limit. -/
def buildFiles : FileTree :=
  ⟨[(["p.mj"], "program P \x7b void main() \x7b\x7d \x7d".toUTF8), (["limits.yaml"], "max_locals: 5".toUTF8)]⟩

theorem run_files_settings : FileTree.access.Lawful FileTree.view ∧ FileTree.access.Reliable ∧
    ∃ outcome after code, (run FileTree.access buildArgs).run buildFiles = (outcome, after) ∧
      Builds FileTree.access FileTree.view buildFiles buildArgs ["p.obj"] code ∧
      outcome.exitCode = 0 ∧ ∀ other, after.get? other =
        if other = ["p.obj"] then some code.objectText.toUTF8 else buildFiles.get? other := by
  refine ⟨FileTree.access_lawful, FileTree.access_reliable, ?_⟩
  obtain ⟨outcome, after, ran, ⟨place, code, builds, others, result⟩ | ⟨_, _, failing⟩⟩ :=
    run_files FileTree.access_lawful buildArgs buildFiles
  · have accepted : Invocation.ofArguments? buildArgs =
        some ⟨.build, "p.mj", none, some "limits.yaml"⟩ := by decide
    have expected : buildFiles.locate "p.obj" = some ["p.obj"] := by decide +kernel
    obtain rfl : ["p.obj"] = place :=
      Option.some.inj (expected.symm.trans ((Builds.iff accepted).mp builds).2.2.1)
    rcases result with ⟨success, held⟩ | ⟨_, unreliable⟩
    · refine ⟨outcome, after, code, ran, builds, success, fun other => ?_⟩
      split
      · next same =>
        rw [same]
        exact held
      · next different => exact others other different
    · exact absurd FileTree.access_reliable unreliable
  · have success : ((run FileTree.access buildArgs).run buildFiles).1.exitCode = 0 := by
      decide +kernel
    rw [ran] at success
    exact absurd success (failing rfl)

end CommandLine

end MicroJava

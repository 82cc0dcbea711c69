import Mathlib.Data.List.Forall2
import MicroJava.Proofs.Coupling.Table
import MicroJava.Proofs.Progress.Basic

/-! # Two compilations side by side

`Coupling` says how two compilations correspond: what names are called in the second one, which
tokens stand for each other, and what is known of the two reporters. `Coupling.Couples` says that
two actions lead from corresponding states to corresponding states, which have the same code. What
relates the two reporters is a parameter, so that reporters may drop different reports and limits
may differ.
-/

namespace MicroJava

open Operand Compile

/-- How two compilations correspond. -/
structure Coupling where
  /-- What a name is called in the second compilation. -/
  rename : String → String
  injective : Function.Injective rename
  fixed : ∀ name ∈ reservedNames, rename name = name
  /-- The limits of the first compilation. -/
  limits : Limits
  /-- The limits of the second compilation. -/
  limits' : Limits
  /-- The tokens that stand for each other. -/
  Tokens : Token → Token → Prop
  lexeme : ∀ {token token'}, Tokens token token' → token'.lexeme = token.lexeme.rename rename
  /-- The problems that the lexer may find at tokens that stand for each other. -/
  Found : List Diagnostic → List Diagnostic → Prop
  found_nil : Found [] []
  /-- What is known of the reporters, whatever was reported. -/
  Reporters : Reporter → Reporter → Prop
  /-- Whether the first compilation may drop further reports. -/
  Warned : Reporter → Prop
  report : ∀ {r r'} p, p.isLexical = false → Reporters r r' →
    Reporters (r.report p) (r'.report (p.rename rename)) ∧ Warned (r.report p)
  check : ∀ {r r'} (limit : Limit) (count : Nat) (p : CapacityProblem), Reporters r r' →
    Reporters (if limits.get limit < count then r.report (.capacity p) else r)
      (if limits'.get limit < count then r'.report (.capacity p) else r')
  advance : ∀ {r r' token token' found found'}, Reporters r r' → Tokens token token' →
    Found found found' →
    Reporters ((found.foldl Reporter.record r).advance token.pos)
      ((found'.foldl Reporter.record r').advance token'.pos)
  hold : ∀ {r r'}, Reporters r r' → Warned r → Reporters r.hold r'.hold
  warned : ∀ {r} (found : List Diagnostic) (pos : Position), Warned r →
    Warned ((found.foldl Reporter.record r).advance pos)

namespace Coupling

/-- Two compilations of one text, of whose reporters nothing is known. -/
def same (limits limits' : Limits) : Coupling where
  rename := id
  injective := Function.injective_id
  fixed := fun _ _ => rfl
  limits := limits
  limits' := limits'
  Tokens := Eq
  lexeme := by
    rintro token _ rfl
    exact (Lexeme.rename_id _).symm
  Found := Eq
  found_nil := rfl
  Reporters := fun _ _ => True
  Warned := fun _ => True
  report := fun _ _ _ => ⟨trivial, trivial⟩
  check := fun _ _ _ _ => trivial
  advance := fun _ _ _ => trivial
  hold := fun _ _ => trivial
  warned := fun _ _ _ => trivial

/-- Scanned tokens that stand for each other. -/
def Scanned (k : Coupling) (next next' : Scanned) : Prop :=
  k.Tokens next.token next'.token ∧ k.Found next.diagnostics next'.diagnostics

/-- States of the two compilations that correspond. -/
structure States (k : Coupling) (s s' : Compiler) : Prop where
  prev : s'.tokens.prev.lexeme = s.tokens.prev.lexeme.rename k.rename
  peek : k.Tokens s.tokens.peek s'.tokens.peek
  rest : List.Forall₂ k.Scanned s.tokens.rest s'.tokens.rest
  reporter : k.Reporters s.reporter s'.reporter
  table : s.table.Renamed k.rename s'.table
  code : s'.code = s.code
  limits : s.limits = k.limits
  limits' : s'.limits = k.limits'
  method : s'.method = s.method
  loopExits : s'.loopExits = s.loopExits
  depth : s'.depth = s.depth

/-- Whether two actions lead from corresponding states to corresponding states. -/
def Couples (k : Coupling) {α β : Type} (m : Compile α) (m' : Compile β)
    (related : α → β → Prop) : Prop :=
  ∀ s s', k.States s s' → ∀ a t, m s = .ok (a, t) →
    ∃ a' t', m' s' = .ok (a', t') ∧ related a a' ∧ k.States t t'

/-- Whether two actions have the same result in the two compilations. -/
class Shares (k : Coupling) {α : Type} (m m' : Compile α) : Prop where
  couples : k.Couples m m' Eq

/-- Whether an action has the same result in both compilations. -/
abbrev Shared (k : Coupling) {α : Type} (m : Compile α) : Prop := k.Shares m m

/-- Whether two terms reduce to the same one. -/
class Same {α : Type} (a b : α) : Prop where
  eq : a = b

instance {α : Type} (a : α) : Same a a := ⟨rfl⟩

variable {k : Coupling} {α β γ δ : Type} {s s' : Compiler}

/-! ## Sequences -/

theorem Couples.bind {m : Compile α} {m' : Compile β} {f : α → Compile γ} {f' : β → Compile δ}
    {related : α → β → Prop} {related' : γ → δ → Prop} (first : k.Couples m m' related)
    (second : ∀ a a', related a a' → k.Couples (f a) (f' a') related') :
    k.Couples (m >>= f) (m' >>= f') related' := by
  intro s s' states c t run
  obtain ⟨a, s1, run1, run2⟩ := run_bind run
  obtain ⟨a', s1', run1', alike, states1⟩ := first s s' states a s1 run1
  obtain ⟨c', t', run2', result⟩ := second a a' alike s1 s1' states1 c t run2
  exact ⟨c', t', (bind_run run1').trans run2', result⟩

theorem Couples.pure {a : α} {b : β} {related : α → β → Prop} (alike : related a b) :
    k.Couples (Pure.pure a) (Pure.pure b) related := by
  rintro s s' states _ _ ⟨rfl, rfl⟩
  exact ⟨b, s', rfl, alike, states⟩

theorem Couples.get : k.Couples MonadState.get MonadState.get k.States := by
  rintro s s' states _ _ ⟨rfl, rfl⟩
  exact ⟨s', s', rfl, states, states⟩

theorem Couples.changes {change change' : Compiler → Compiler}
    (step : ∀ s s', k.States s s' → k.States (change s) (change' s')) :
    k.Couples (modify change) (modify change') Eq := by
  rintro s s' states _ _ ⟨rfl, rfl⟩
  exact ⟨(), change' s', rfl, rfl, step s s' states⟩

namespace Shares

variable {m m' n n' : Compile α} {f f' : α → Compile β}

instance bind [first : k.Shares m m'] [second : ∀ a, k.Shares (f a) (f' a)] :
    k.Shares (m >>= f) (m' >>= f') :=
  ⟨first.couples.bind fun a _ same => same ▸ (second a).couples⟩

theorem step [k.Shares m m'] (rest : ∀ a, k.Shares (f a) (f' a)) :
    k.Shares (m >>= f) (m' >>= f') := bind

instance pure (a : α) : k.Shared (Pure.pure a) := ⟨.pure rfl⟩

instance (fault : Fault) : k.Shared (throw fault : Compile α) where
  couples _ _ _ _ _ run := by cases run

instance ite {condition : Prop} [Decidable condition] [yes : k.Shares m m'] [no : k.Shares n n'] :
    k.Shares (if condition then m else n) (if condition then m' else n') := by
  split
  · exact yes
  · exact no

/-- Both compilations read the same from their states. -/
theorem get {f f' : Compiler → Compile β} (rest : ∀ s s', k.States s s' → k.Shares (f s) (f' s')) :
    k.Shares (MonadState.get >>= f) (MonadState.get >>= f') :=
  ⟨.bind .get fun s s' states => (rest s s' states).couples⟩

theorem changes {change : Compiler → Compiler}
    (step : ∀ s s', k.States s s' → k.States (change s) (change s')) :
    k.Shared (modify change) := ⟨.changes step⟩

end Shares

/-! ## Tokens and reports -/

theorem States.withReporter (states : k.States s s') {r r' : Reporter}
    (reporters : k.Reporters r r') : k.States { s with reporter := r } { s' with reporter := r' } :=
  { states with reporter := reporters }

theorem States.withTable (states : k.States s s') {t t' : SymbolTable}
    (renamed : t.Renamed k.rename t') : k.States { s with table := t } { s' with table := t' } :=
  { states with table := renamed }

theorem Tokens.kind {token token' : Token} (same : k.Tokens token token') :
    token'.kind = token.kind := by
  simp [Token.kind, k.lexeme same]

/-- The states after the next token was consumed. -/
theorem States.scanned (states : k.States s s') :
    ∃ t t', Compile.scan s = .ok ((), t) ∧ Compile.scan s' = .ok ((), t') ∧ k.States t t' ∧
      (k.Warned s.reporter → k.Warned t.reporter) := by
  refine ⟨_, _, rfl, rfl, ?_, k.warned _ _⟩
  have lexeme := k.lexeme states.peek
  have rest := states.rest
  simp only [TokenStream.pending, TokenStream.advance]
  generalize s.tokens.rest = left at rest
  generalize s'.tokens.rest = left' at rest
  cases rest with
  | nil =>
    exact { states with
      prev := lexeme, rest := .nil, reporter := k.advance states.reporter states.peek k.found_nil }
  | cons next more =>
    exact { states with
      prev := lexeme, peek := next.1, rest := more
      reporter := k.advance states.reporter next.1 next.2 }

theorem States.scannedMany (states : k.States s s') (count : Nat) :
    ∃ t t', scanMany count s = .ok ((), t) ∧ scanMany count s' = .ok ((), t') ∧
      k.States t t' ∧ (k.Warned s.reporter → k.Warned t.reporter) := by
  induction count generalizing s s' with
  | zero => exact ⟨s, s', rfl, rfl, states, id⟩
  | succ count ih =>
    obtain ⟨s1, s1', run1, run1', states1, still1⟩ := states.scanned
    obtain ⟨t, t', run2, run2', states2, still2⟩ := ih states1
    exact ⟨t, t', (bind_run run1).trans run2, (bind_run run1').trans run2', states2,
      still2 ∘ still1⟩

/-- The states after several problems were reported, whose names are the other ones. -/
theorem States.reports (states : k.States s s') {problems : List Problem}
    (notLexical : ∀ p ∈ problems, p.isLexical = false) :
    let problems' := problems.map (.rename k.rename)
    k.States { s with reporter := problems.foldl .report s.reporter }
      { s' with reporter := problems'.foldl .report s'.reporter } := by
  refine states.withReporter ?_
  have reporters := states.reporter
  generalize s.reporter = r at reporters
  generalize s'.reporter = r' at reporters
  induction problems generalizing r r' with
  | nil => exact reporters
  | cons p problems ih =>
    have first := (k.report p (notLexical p (List.mem_cons_self ..)) reporters).1
    exact ih (fun q member => notLexical q (List.mem_cons_of_mem _ member)) _ _ first

/-- Whether a problem has the same wording in both compilations. -/
def Plain (k : Coupling) (p : Problem) : Prop := p.rename k.rename = p ∧ p.isLexical = false

/-- Whether a condition evaluates to true. -/
class Holds (condition : Bool) : Prop where
  eq_true : condition = true

instance : Holds true := ⟨rfl⟩

theorem plain (k : Coupling) (p : Problem) [isPlain : Holds p.isPlain] : k.Plain p := by
  have isPlain := isPlain.eq_true
  cases p with
  | semantic p =>
    cases p with
    | methodNotFound | alreadyDeclared | notField | notFound => cases isPlain
    | _ => exact ⟨rfl, rfl⟩
  | lexical => cases isPlain
  | _ => exact ⟨rfl, rfl⟩

/-- Whether problems have the same wording in both compilations. -/
class AllPlain (k : Coupling) (problems : List Problem) : Prop where
  all : ∀ p ∈ problems, k.Plain p

namespace AllPlain

variable {front back : List Problem}

instance nil : k.AllPlain [] := ⟨by simp⟩

instance one {p : Problem} [Holds p.isPlain] : k.AllPlain [p] := ⟨by simpa using k.plain p⟩

instance ite {condition : Prop} [Decidable condition] [yes : k.AllPlain front]
    [no : k.AllPlain back] : k.AllPlain (if condition then front else back) := by
  split
  · exact yes
  · exact no

instance append [first : k.AllPlain front] [second : k.AllPlain back] :
    k.AllPlain (front ++ back) := ⟨List.forall_mem_append.mpr ⟨first.all, second.all⟩⟩

instance (x : Operand) (c : CodeBuffer) : k.AllPlain (x.call c).problems := by
  rw [call_eq]
  infer_instance

instance (x : Operand) (c : CodeBuffer) : k.AllPlain (x.loadValue c).problems := by
  rw [loadValue_eq]
  infer_instance

instance (x : Operand) (c : CodeBuffer) : k.AllPlain (x.loadAndKeep c).problems := by
  by_cases method : x.kind = .method
  · simp only [loadAndKeep, method]
    infer_instance
  · rw [x.loadAndKeep_eq c method]
    infer_instance

instance (x y : Operand) (c : CodeBuffer) : k.AllPlain (x.assign y c).problems := by
  rw [assign_eq]
  infer_instance

instance step (x : Operand) (up : Bool) (c : CodeBuffer) : k.AllPlain (x.step up c).problems := by
  rw [step_eq]
  infer_instance

instance (id : EntityId) (e : Entity) : k.AllPlain (ofEntity id e).problems := by
  unfold ofEntity
  infer_instance

end AllPlain

/-- The states after several problems were reported that have the same wording. -/
theorem States.reportsPlain (states : k.States s s') (problems : List Problem)
    [plain : k.AllPlain problems] :
    k.States { s with reporter := problems.foldl Reporter.report s.reporter }
      { s' with reporter := problems.foldl Reporter.report s'.reporter } := by
  have same : problems.map (.rename k.rename) = problems := by
    conv_rhs => rw [← List.map_id problems]
    exact List.map_congr_left fun p member => (plain.all p member).1
  have reported := states.reports fun p member => (plain.all p member).2
  simpa only [same] using reported

namespace Shares

instance : k.Shared Compile.scan where
  couples s s' states _ t run := by
    obtain ⟨t1, t', run1, run', after, _⟩ := states.scanned
    cases run1.symm.trans run
    exact ⟨(), t', run', rfl, after⟩

instance (count : Nat) : k.Shared (scanMany count) := by
  induction count with
  | zero => exact pure ()
  | succ count ih => exact bind

instance : k.Shared Compile.lookahead where
  couples := by
    rintro s s' states _ _ ⟨rfl, rfl⟩
    exact ⟨_, s', rfl, states.peek.kind.symm, states⟩

/-- What the token consumed last says. -/
theorem previous {f f' : Token → Compile β}
    (rest : ∀ token token' : Token, token'.value = token.value →
      token'.name = k.rename token.name → k.Shares (f token) (f' token')) :
    k.Shares (previous >>= f) (previous >>= f') where
  couples s s' states := by
    refine (rest s.tokens.prev s'.tokens.prev ?_ ?_).couples s s' states
    · simp [Token.value, states.prev]
    · rw [Token.name, states.prev, Lexeme.name_rename k.fixed]
      rfl

instance (p : Problem) [Holds p.isPlain] : k.Shared (Compile.report p) :=
  changes fun _ _ states => (states.reportsPlain [p] :)

instance (condition : Bool) (p : Problem) [Holds p.isPlain] :
    k.Shared (Compile.reportIf condition p) := ite

instance (problems : List Problem) [k.AllPlain problems] :
    k.Shared (reportAll problems) :=
  changes fun _ _ states => states.reportsPlain problems

instance expect (kind : TokenKind) : k.Shared (Compile.expect kind) := bind

/-- A name in the one compilation and what it is called in the other. -/
instance (priority := high) named {f f' : String → Compile β}
    [rest : ∀ name, k.Shares (f name) (f' (k.rename name))] :
    k.Shares (expectName >>= f) (expectName >>= f') where
  couples := by
    have scanned : k.Couples .expectName .expectName
        fun name name' => name' = k.rename name := by
      refine (expect .ident).couples.bind fun _ _ _ => ?_
      rintro s s' states _ _ ⟨rfl, rfl⟩
      refine ⟨_, s', rfl, ?_, states⟩
      change s'.tokens.prev.lexeme.name = _
      rw [states.prev, Lexeme.name_rename k.fixed]
      rfl
    refine scanned.bind ?_
    rintro name _ rfl
    exact (rest name).couples

instance repeatWhile {test : TokenKind → Bool} {body body' : α → Compile α}
    [step : ∀ a, k.Shares (body a) (body' a)] (a : α) :
    k.Shares (repeatWhile test body a) (repeatWhile test body' a) where
  couples := by
    intro s s' states b t run
    change repeatWhile.go test body s.tokens.rest a s = .ok (b, t) at run
    change ∃ b' t', repeatWhile.go test body' s'.tokens.rest a s' = .ok (b', t') ∧ _
    have rest := states.rest
    generalize s.tokens.rest = left at run rest
    generalize s'.tokens.rest = left' at rest
    -- The tokens left when the loop began bound its runs, and there are as many in both.
    induction rest generalizing a s s' with
    | nil =>
      cases run
      exact ⟨_, _, rfl, rfl, states⟩
    | cons _ _ ih =>
      unfold repeatWhile.go at run ⊢
      rw [states.peek.kind]
      split at run
      · next more =>
        rw [if_pos more]
        cases first : body a s with
        | error fault => simp [first] at run
        | ok result =>
          obtain ⟨_, s1', first', rfl, states1⟩ := (step a).couples s s' states _ _ first
          simp only [first] at run
          simp only [first']
          exact ih _ _ _ states1 run
      · next stop =>
        rw [if_neg stop]
        cases run
        exact ⟨_, _, rfl, rfl, states⟩

instance commaSeparated {item item' : α → Compile α} [∀ a, k.Shares (item a) (item' a)] (a : α) :
    k.Shares (commaSeparated item a) (commaSeparated item' a) := bind

end Shares

/-! ## Declarations -/

namespace Shares

/-- What is known about an entity, apart from its name. -/
instance (priority := high) entityOf {f f' : Entity → Compile β} (id : EntityId)
    [rest : ∀ e name, k.Shares (f e) (f' { e with name })] :
    k.Shares (Compile.entityOf id >>= f) (Compile.entityOf id >>= f') where
  couples := by
    have known : k.Couples (.entityOf id) (.entityOf id)
        fun e e' => ∃ name, e' = { e with name } := by
      intro s s' states e t run
      change (if s.table.contains id then Pure.pure _ else throw _ : Compile Entity) s = _ at run
      change ∃ _ _, (if s'.table.contains id then Pure.pure _ else throw _ : Compile Entity) s' = _ ∧ _
      rw [states.table.contains]
      split at run
      · next inside =>
        rw [if_pos inside]
        cases run
        exact ⟨_, _, rfl, states.table.entity id, states⟩
      · cases run
    refine known.bind ?_
    rintro e _ ⟨name, rfl⟩
    exact (rest e name).couples

theorem entityOf_blind {f : Entity → Compile β} (id : EntityId)
    (blind : ∀ e name, f { e with name } = f e) (rest : ∀ e, k.Shared (f e)) :
    k.Shared (Compile.entityOf id >>= f) := by
  have rest (e : Entity) (name : String) : k.Shares (f e) (f { e with name }) :=
    (blind e name).symm ▸ rest e
  exact entityOf id

/-- A change of an entity that has nothing to do with its name. -/
instance (id : EntityId) (change : Entity → Entity)
    [blind : ∀ e name, Same (change { e with name }) { change e with name }] :
    k.Shared (modifyEntity id change) where
  couples := by
    intro s s' states u t run
    change (if s.table.contains id then modify _ else throw _ : Compile Unit) s = _ at run
    change ∃ _ _, (if s'.table.contains id then modify _ else throw _ : Compile Unit) s' = _ ∧ _
    rw [states.table.contains]
    split at run
    · next inside =>
      rw [if_pos inside]
      cases run
      have modified := states.table.modify inside fun e name => (blind e name).eq
      exact ⟨_, _, rfl, rfl, states.withTable modified⟩
    · cases run

instance (a : TypeId) : k.Shared (requireType a) := by
  refine get fun s s' states => ?_
  rw [states.table.types]
  infer_instance

/-- A question about the types, which are the same in both compilations. -/
theorem types (question : TypeTable → α) :
    k.Shared (MonadState.get >>= fun s : Compiler => Pure.pure (question s.table.types)) := by
  refine get fun s s' states => ?_
  rw [states.table.types]
  infer_instance

instance (a : TypeId) (question : TypeTable → TypeId → α) :
    k.Shared (askType a question) := step fun _ => types (question · a)

instance (a b : TypeId) : k.Shared (comparable a b) :=
  step fun _ => step fun _ => types (·.comparable a b)

instance (a b : TypeId) : k.Shared (assignable a b) :=
  step fun _ => step fun _ => types (·.assignable a b)

/-- Adding a type that has no fields. -/
theorem addType {info : TypeInfo} (bare : info.fields = []) :
    let add : Compile TypeId := modifyGet fun s : Compiler =>
      let (type, types) := s.table.types.add info
      (type, { s with table := { s.table with types } })
    k.Shared add where
  couples := by
    rintro s s' states _ _ ⟨rfl, rfl⟩
    refine ⟨_, _, rfl, ?_, ?_⟩
    · simp only [states.table.types]
    · simp only [states.table.types]
      refine states.withTable (states.table.withTypes (by simp [TypeTable.size])
        fun a id member => ?_)
      have member : id ∈ (s.table.types.add info).2.fields a := member
      rw [TypeTable.fields_add bare] at member
      exact states.table.fields a id member

instance (elem : TypeId) : k.Shared (addArray elem) := step fun _ => addType rfl

instance : k.Shared addClass := addType rfl

theorem setFields (type : TypeId) {fields : List EntityId} (named : ∀ id ∈ fields, id.IsNamed k.rename) :
    k.Shared (setFields type fields) := by
  refine step fun _ => changes fun s s' states => ?_
  rw [states.table.types]
  refine states.withTable (states.table.withTypes (by simp [TypeTable.setFields, TypeTable.size])
    fun a id member => ?_)
  rcases TypeTable.mem_fields_setFields member with new | old
  · exact named id new
  · exact states.table.fields a id old

/-- Declaring a name in the one compilation and what it is called in the other. -/
instance (kind : EntityKind) (name : String) (type : TypeId) :
    k.Shares (declare kind name type) (declare kind (k.rename name) type) where
  couples := by
    intro s s' states id t run
    unfold declare at run ⊢
    cases inserted : s.table.insert kind name type with
    | error fault => simp [inserted] at run
    | ok result =>
      rw [inserted] at run
      cases run
      obtain ⟨u', inserted', renamed, notLexical⟩ :=
        states.table.insert k.injective (k.fixed "" (by decide)) inserted
      rw [inserted']
      exact ⟨_, _, rfl, rfl, (states.reports notLexical).withTable renamed⟩

/-- Resolving a name in the one compilation and what it is called in the other. -/
theorem resolve {find find' : SymbolTable → Reported EntityId}
    (finds : ∀ t t', t.Renamed k.rename t' → (find t).Renamed k.rename (find' t')) :
    k.Shares (Compile.resolve find) (Compile.resolve find') where
  couples := by
    rintro s s' states _ _ ⟨rfl, rfl⟩
    have found := finds _ _ states.table
    refine ⟨_, _, rfl, found.result.symm, ?_⟩
    have reported := states.reports found.notLexical
    rw [← found.problems] at reported
    exact reported

instance (name : String) : k.Shares (find name) (find (k.rename name)) :=
  resolve fun _ _ renamed => renamed.find k.injective name

instance (name : String) (type : TypeId) :
    k.Shares (Compile.resolve (·.findField name type))
      (Compile.resolve (·.findField (k.rename name) type)) :=
  resolve fun _ _ renamed => renamed.findField k.injective name type

instance : k.Shared (Compile.resolve (·.findMethod "main")) := by
  refine resolve fun t t' renamed => ?_
  have found := renamed.findMethod k.injective "main"
  rwa [k.fixed "main" (by decide)] at found

instance : k.Shared currentScope := by
  refine get fun s s' states => ?_
  have same : s'.table.currentScope = s.table.currentScope := by
    simp only [SymbolTable.currentScope, states.table.scopes]
  rw [same]
  split <;> infer_instance

end Shares

/-- What is declared in a scope of its own is the same in both compilations, and can be named. -/
theorem Couples.inScope {action action' : Compile Unit} (inner : k.Shares action action') :
    k.Couples (inScope action) (inScope action')
      fun ids ids' => ids = ids' ∧ ∀ id ∈ ids, id.IsNamed k.rename := by
  refine .bind (.changes fun s s' states => states.withTable states.table.openScope)
    fun _ _ _ => inner.couples.bind fun _ _ _ => ?_
  intro s s' states ids t run
  obtain ⟨_, _, ⟨rfl, rfl⟩, run⟩ := run_bind run
  cases closed : s.table.closeScope with
  | error fault =>
    simp only [closed] at run
    cases run
  | ok result =>
    simp only [closed] at run
    cases run
    obtain ⟨u', closed', renamed, named⟩ := states.table.closeScope closed
    refine ⟨_, _, (bind_run rfl).trans ?_, ⟨rfl, named⟩, states.withTable renamed⟩
    simp only [closed']
    rfl

namespace Shares

instance {action action' : Compile Unit} [inner : k.Shares action action'] :
    k.Shares (inScope action) (inScope action') where
  couples s s' states ids t run := by
    obtain ⟨ids', t', run', ⟨same, _⟩, after⟩ := Couples.inScope inner s s' states ids t run
    exact ⟨ids', t', run', same, after⟩

/-! ## Code -/

instance code (change : CodeBuffer → CodeBuffer) : k.Shared (code change) :=
  changes fun _ _ states => { states with code := congrArg change states.code }

instance (op : Opcode) (operands : List Int) : k.Shared (emit op operands) := code _

instance (value : Int32) : k.Shared (loadConst value) := code _

instance : k.Shared pc := by
  refine get fun s s' states => ?_
  rw [states.code]
  infer_instance

instance codeReported (change : CodeBuffer → Reported CodeBuffer)
    [∀ c, k.AllPlain (change c).problems] :
    k.Shared (codeReported change) := by
  refine changes fun s s' states => ?_
  simp only [states.code]
  exact { states.reportsPlain (change s.code).problems with code := rfl }

instance (x : Operand) : k.Shared (loadValue x) := bind

instance (x y : Operand) : k.Shared (assign x y) := codeReported _

theorem withCode (change : CodeBuffer → Except Fault (α × CodeBuffer)) :
    k.Shared (Compile.withCode change) where
  couples := by
    rintro ⟨tokens, reporter, table, code, limits, method, loopExits, depth⟩
      ⟨tokens', reporter', table', code', limits', method', loopExits', depth'⟩ states a t run
    obtain rfl : code' = code := states.code
    simp only [Compile.withCode] at run ⊢
    split at run
    · cases run
      exact ⟨_, _, rfl, rfl, { states with code := rfl }⟩
    · cases run

instance (method : Option EntityId) :
    k.Shared (modify fun s : Compiler => { s with method } : Compile PUnit) :=
  changes fun _ _ states => { states with method := rfl }

instance (loopExits : List Label) :
    k.Shared (modify fun s : Compiler => { s with loopExits } : Compile PUnit) :=
  changes fun _ _ states => { states with loopExits := rfl }

instance (label : Label) : k.Shared (jump label) := withCode _

instance (x : Condition) : k.Shared (jumpIfTrue x) := withCode _

instance (x : Condition) : k.Shared (jumpIfFalse x) := withCode _

instance (label : Label) : k.Shared (here label) := withCode _

instance {body body' : Compile Unit} [k.Shares body body'] :
    k.Shares (inLoop body) (inLoop body') := by
  have enter : k.Shared (modify fun s : Compiler => { s with loopExits := .fresh :: s.loopExits } :
      Compile PUnit) :=
    changes fun _ _ states => { states with loopExits := congrArg (List.cons _) states.loopExits }
  refine step fun _ => step fun _ => get fun s s' states => ?_
  rw [states.loopExits]
  split <;> infer_instance

end Shares

/-! ## Going on after a problem -/

/-- The number of tokens that are skipped is the same in both compilations. -/
theorem States.countUntil (states : k.States s s') {stop stop' : Token → Bool}
    (same : ∀ token token', k.Tokens token token' → stop' token' = stop token) :
    s'.tokens.countUntil stop' = s.tokens.countUntil stop := by
  have later : s'.tokens.rest.findIdx (fun next => stop' next.token) =
      s.tokens.rest.findIdx fun next => stop next.token := by
    have rest := states.rest
    generalize s.tokens.rest = left at rest ⊢
    generalize s'.tokens.rest = left' at rest ⊢
    induction rest with
    | nil => rfl
    | cons next _ ih => rw [List.findIdx_cons, List.findIdx_cons, same _ _ next.1, ih]
  rw [TokenStream.countUntil, TokenStream.countUntil, same _ _ states.peek, later]

theorem Shares.skip (step : Nat → TokenKind → Skip) :
    k.Shared (MonadState.get >>= fun s : Compiler =>
      scanMany (s.tokens.countSkipped step)) := by
  refine .get fun s s' states => ?_
  have same : s'.tokens.countSkipped step = s.tokens.countSkipped step := by
    have rest := states.rest
    unfold TokenStream.countSkipped
    rw [states.peek.kind]
    generalize s.tokens.rest = left at rest ⊢
    generalize s'.tokens.rest = left' at rest ⊢
    generalize s.tokens.peek.kind = kind
    suffices ∀ seen brackets, Skip.count step seen brackets kind left' =
        Skip.count step seen brackets kind left from this 0 0
    induction rest generalizing kind with
    | nil => exact fun _ _ => rfl
    | cons next _ ih =>
      intro seen brackets
      simp only [Skip.count, next.1.kind, ih]
  rw [same]
  infer_instance

instance : k.Shared skipExpression := .skip _

instance : k.Shared skipStatement := .skip _

/-- Whether an action, run after a report, has the same result in both compilations. -/
def SharesWarned (k : Coupling) {α : Type} (m : Compile α) : Prop :=
  ∀ s s', k.States s s' → k.Warned s.reporter → ∀ a t, m s = .ok (a, t) →
    ∃ t', m s' = .ok (a, t') ∧ k.States t t'

namespace SharesWarned

variable {m : Compile α} {f : α → Compile β}

theorem bind (first : k.SharesWarned m) (second : ∀ a, k.Shared (f a)) :
    k.SharesWarned (m >>= f) := by
  intro s s' states warned b t run
  obtain ⟨a, s1, run1, run2⟩ := run_bind run
  obtain ⟨s1', run1', states1⟩ := first s s' states warned a s1 run1
  obtain ⟨_, t', run2', rfl, states2⟩ := (second a).couples s1 s1' states1 b t run2
  exact ⟨t', (bind_run run1').trans run2', states2⟩

theorem lookahead {f : TokenKind → Compile β} (rest : ∀ kind, k.SharesWarned (f kind)) :
    k.SharesWarned (Compile.lookahead >>= f) := by
  intro s s' states warned b t run
  obtain ⟨t', run', after⟩ := rest s.tokens.peek.kind s s' states warned b t run
  refine ⟨t', ?_, after⟩
  change f s'.tokens.peek.kind s' = _
  rw [states.peek.kind]
  exact run'

theorem scan {f : Unit → Compile β} (rest : k.SharesWarned (f ())) :
    k.SharesWarned (Compile.scan >>= f) := by
  intro s s' states warned b t run
  obtain ⟨s1, s1', run1, run1', states1, still⟩ := states.scanned
  rw [bind_run run1] at run
  rw [bind_run run1']
  exact rest s1 s1' states1 (still warned) b t run

/-- Skipping up to a token that both compilations stop at. -/
theorem skipUntil (stop : SymbolTable → Token → Bool)
    (same : ∀ {t t' token token'}, t.Renamed k.rename t' → k.Tokens token token' →
      stop t' token' = stop t token) :
    k.SharesWarned (do
      let s ← get
      Compile.skipUntil (stop s.table)
      Compile.holdReports) := by
  intro s s' states
  have count : s'.tokens.countUntil (stop s'.table) = s.tokens.countUntil (stop s.table) :=
    states.countUntil fun _ _ alike => same states.table alike
  intro warned _ t run
  obtain ⟨s1, s1', run1, run1', states1, still⟩ :=
    states.scannedMany (s.tokens.countUntil (stop s.table))
  change (.scanMany (s.tokens.countUntil (stop s.table)) >>= fun _ =>
    Compile.holdReports) s = _ at run
  change ∃ t', (.scanMany (s'.tokens.countUntil (stop s'.table)) >>= fun _ =>
    Compile.holdReports) s' = _ ∧ _
  rw [bind_run run1] at run
  rw [count, bind_run run1']
  cases run
  exact ⟨_, rfl, states1.withReporter (k.hold states1.reporter (still warned))⟩

end SharesWarned

/-- A report, and what is done after it. -/
theorem Shares.warned {f : Unit → Compile β} {p : Problem} [Holds p.isPlain]
    (rest : k.SharesWarned (f ())) : k.Shared (Compile.report p >>= f) := by
  refine ⟨fun s s' states b t run => ?_⟩
  have reported := k.report p (k.plain p).2 states.reporter
  rw [(k.plain p).1] at reported
  obtain ⟨t', run', after⟩ := rest _ _ (states.withReporter reported.1) reported.2 b t run
  exact ⟨b, t', run', rfl, after⟩

namespace SharesWarned

theorem recoverStatement : k.SharesWarned recoverStatement := by
  have rest : k.SharesWarned (do
      Compile.skipUntil fun token => token.kind.boundsStatement
      Compile.holdReports) :=
    skipUntil (fun _ token => token.kind.boundsStatement) fun _ alike => by rw [alike.kind]
  refine lookahead fun kind => ?_
  split
  · exact scan rest
  · exact rest

/-- Going on after a problem with a declaration or a method. -/
theorem recover {stop : TokenKind → Bool} : k.SharesWarned (do
    Compile.scan
    let s ← get
    Compile.skipUntil fun token => stop token.kind || s.table.namesType token
    Compile.holdReports) := by
  refine scan (skipUntil (fun table token => stop token.kind || table.namesType token) ?_)
  intro t t' token token' renamed alike
  have name : token'.name = k.rename token.name := by
    rw [Token.name, k.lexeme alike, Lexeme.name_rename k.fixed]
    rfl
  simp only [alike.kind, SymbolTable.namesType, name, renamed.isTypeName k.injective]

theorem recoverDeclaration : k.SharesWarned recoverDeclaration := recover

theorem recoverMethod : k.SharesWarned recoverMethod := recover

end SharesWarned

/-! ## Nesting -/

instance Shares.deeper {action tooDeep : Compile α} [k.Shared action] [k.Shared tooDeep] :
    k.Shared (deeper action tooDeep) := by
  have setDepth (change : Nat → Nat) : k.Shared
      (modify fun s : Compiler => { s with depth := change s.depth } : Compile PUnit) :=
    .changes fun _ _ states => { states with depth := congrArg change states.depth }
  refine .get fun s s' states => ?_
  rw [states.depth]
  infer_instance

end Coupling

end MicroJava

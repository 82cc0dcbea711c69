import MicroJava.Compilation
import MicroJava.Proofs.Run.State

/-! # Consuming tokens

`TokenStream.Consumes` relates a stream to those reached by consuming tokens other than the end of
the source. `Compile.Reads` says that an action only moves on in this way, and under which condition
it surely consumes a token. Whatever was recorded stays recorded, and the action ends at the depth
where it began. What it does depends on nothing but the lexemes that it consumes and the one in front
of which it ends. Repetitions whose runs all consume a token go on until their test fails:
the bound on the number of runs is never met.
-/

namespace MicroJava

open Operand List TokenStream Compile

/-! ## Streams -/

namespace TokenStream

/-- Whether a stream is reached from another one by consuming tokens, none of which is the end of
the source. -/
inductive Consumes : TokenStream → TokenStream → Prop where
  | refl {t : TokenStream} : Consumes t t
  | step {t t' : TokenStream} (more : t.peek.kind ≠ .eof) (rest : Consumes t.advance t') :
      Consumes t t'

variable {t t1 t2 : TokenStream}

theorem Consumes.trans (first : t.Consumes t1) (second : t1.Consumes t2) : t.Consumes t2 := by
  induction first with
  | refl => exact second
  | step more _ ih => exact .step more (ih second)

theorem Consumes.wellFormed (consumes : t.Consumes t1) (wellFormed : t.WellFormed) :
    t1.WellFormed := by
  induction consumes with
  | refl => exact wellFormed
  | step _ _ ih => exact ih wellFormed.advance

@[simp] theorem steps_advance : t.advance.steps = t.steps + 1 := by
  unfold advance
  split <;> rfl

theorem Consumes.steps (consumes : t.Consumes t1) : t.steps ≤ t1.steps := by
  induction consumes with
  | refl => exact Nat.le_refl _
  | step _ _ ih =>
    rw [steps_advance] at ih
    omega

/-- Before the end of the source there is another token. -/
theorem WellFormed.rest_advance (wellFormed : t.WellFormed) (more : t.peek.kind ≠ .eof) :
    t.rest.length = t.advance.rest.length + 1 := by
  obtain ⟨front, all, _⟩ := wellFormed
  cases rest : t.rest with
  | nil =>
    cases front with
    | nil =>
      simp only [upcoming, rest, map_nil, nil_append, cons.injEq, and_true] at all
      exact absurd (by simp [Token.kind, all, Lexeme.kind]) more
    | cons head front => simp [upcoming, rest] at all
  | cons next rest' => simp [TokenStream.advance, rest]

/-- Every token is consumed in one step. -/
theorem Consumes.steps_add (consumes : t.Consumes t1) (wellFormed : t.WellFormed) :
    t1.steps + t1.rest.length = t.steps + t.rest.length := by
  induction consumes with
  | refl => rfl
  | step more _ ih =>
    have rest := wellFormed.rest_advance more
    rw [ih wellFormed.advance, steps_advance]
    omega

/-- Induction along the tokens up to the end of the source. -/
theorem WellFormed.induction {motive : TokenStream → Prop}
    (step : ∀ t : TokenStream, t.WellFormed → (t.peek.kind ≠ .eof → motive t.advance) → motive t)
    (wellFormed : t.WellFormed) : motive t := by
  induction left : t.rest.length generalizing t with
  | zero =>
    refine step t wellFormed fun more => ?_
    have := wellFormed.rest_advance more
    omega
  | succ n ih =>
    refine step t wellFormed fun more => ih wellFormed.advance ?_
    have := wellFormed.rest_advance more
    omega

/-- The last token of a source is its end. -/
theorem WellFormed.peek_eof (wellFormed : t.WellFormed) (last : t.rest = []) :
    t.peek.kind = .eof := by
  refine Decidable.byContradiction fun more => ?_
  have := wellFormed.rest_advance more
  simp [last] at this

/-! ## Streams side by side -/

/-- Whether a stream looks like another one: what was consumed last and what is next are the same
lexemes, wherever they stand. -/
structure Alike (t u : TokenStream) : Prop where
  wellFormed : u.WellFormed
  prev : u.prev.lexeme = t.prev.lexeme
  peek : u.peek.lexeme = t.peek.lexeme

/-- Whether two streams are reached from two others by consuming as many tokens, none of them the
end of the source, and look alike all the way. -/
inductive Parallel : TokenStream → TokenStream → TokenStream → TokenStream → Prop where
  | refl {t u : TokenStream} (alike : t.Alike u) : Parallel t u t u
  | step {t u t' u' : TokenStream} (more : t.peek.kind ≠ .eof) (alike : t.Alike u)
      (rest : Parallel t.advance u.advance t' u') : Parallel t u t' u'

namespace Parallel

variable {u u' t' : TokenStream}

theorem alike (parallel : t.Parallel u t' u') : t.Alike u := by
  cases parallel with
  | refl alike => exact alike
  | step _ alike _ => exact alike

section

variable (parallel : t.Parallel u t' u')

include parallel

theorem alike_end : t'.Alike u' := by
  induction parallel with
  | refl alike => exact alike
  | step _ _ _ ih => exact ih

theorem consumes : t.Consumes t' := by
  induction parallel with
  | refl => exact .refl
  | step more _ _ ih => exact .step more ih

/-- Where a stream has not moved, the one beside it has not either. -/
theorem eq_of_eq (same : t' = t) : u' = u := by
  cases parallel with
  | refl => rfl
  | step _ _ rest =>
    have := rest.consumes.steps
    rw [same, steps_advance] at this
    omega

private theorem eq_advance (next : t' = t.advance) : u' = u.advance := by
  cases parallel with
  | refl =>
    have := congrArg steps next
    rw [steps_advance] at this
    omega
  | step _ _ rest => exact rest.eq_of_eq next

end

/-- Streams side by side pass every stream on the way together. -/
theorem split (first : t.Consumes t1) (second : t1.Consumes t') (parallel : t.Parallel u t' u') :
    ∃ u1, t.Parallel u t1 u1 ∧ t1.Parallel u1 t' u' := by
  induction first generalizing u with
  | refl => exact ⟨u, .refl parallel.alike, parallel⟩
  | step more rest ih =>
    cases parallel with
    | refl =>
      have := (rest.trans second).steps
      rw [steps_advance] at this
      omega
    | step more alike others =>
      obtain ⟨u1, front, back⟩ := ih second others
      exact ⟨u1, .step more alike front, back⟩

theorem steps (parallel : t.Parallel u t' u') : u'.steps + t.steps = u.steps + t'.steps := by
  induction parallel with
  | refl => rfl
  | step _ _ _ ih =>
    simp only [steps_advance] at ih
    omega

end Parallel

/-- A stream beside another one that moves on, as long as the lexemes are the same. -/
theorem Consumes.parallel {t' u : TokenStream} (consumes : t.Consumes t')
    (wellFormed : t.WellFormed) (other : u.WellFormed) (prev : u.prev.lexeme = t.prev.lexeme)
    (same : u.upcoming.take (t'.steps - t.steps + 1) = t.upcoming.take (t'.steps - t.steps + 1)) :
    ∃ u', t.Parallel u t' u' := by
  have peek {d : Nat} {t u : TokenStream} (same : u.upcoming.take (d + 1) = t.upcoming.take (d + 1)) :
      u.peek.lexeme = t.peek.lexeme := by
    simp only [upcoming, take_succ_cons, cons.injEq] at same
    exact same.1
  induction consumes generalizing u with
  | refl => exact ⟨u, .refl ⟨other, prev, peek same⟩⟩
  | @step t t' more rest ih =>
    have next := peek same
    have notEnd : t.peek.lexeme ≠ .eof := fun ended => more (congrArg Lexeme.kind ended)
    have behind := rest.steps
    rw [steps_advance] at behind
    rw [wellFormed.upcoming_eq notEnd, other.upcoming_eq (by rw [next]; exact notEnd),
      take_succ_cons, take_succ_cons, cons.injEq] at same
    have fewer : t'.steps - t.steps = t'.steps - t.advance.steps + 1 := by
      rw [steps_advance]
      omega
    rw [fewer] at same
    obtain ⟨u', parallel⟩ := ih wellFormed.advance other.advance (by simpa using next) same.2
    exact ⟨u', .step more ⟨other, prev, next⟩ parallel⟩

end TokenStream

/-- What was seen before is counted too. -/
theorem Skip.count_seen (step : Nat → TokenKind → Skip) (seen brackets : Nat) (kind : TokenKind)
    (rest : List Scanned) :
    count step (seen + 1) brackets kind rest = count step seen brackets kind rest + 1 := by
  induction rest generalizing seen brackets kind with
  | nil =>
    unfold count
    cases step brackets kind <;> rfl
  | cons next rest ih =>
    unfold count
    cases step brackets kind with
    | stop => rfl
    | last => rfl
    | more brackets => exact ih ..

/-! ## Problems -/

/-- Whether a problem is that tokens do not follow the grammar. -/
def Problem.isGrammar : Problem → Bool
  | grammar _ => true
  | _ => false

/-- Whether problems have nothing to do with the grammar. -/
class Mild (problems : List Problem) : Prop where
  all : ∀ p ∈ problems, p.isGrammar = false

namespace Mild

variable {front back : List Problem}

instance nil : Mild [] := ⟨by simp⟩

instance semantic (p : SemanticProblem) : Mild [.semantic p] := ⟨by simp [Problem.isGrammar]⟩

instance ite {condition : Prop} [Decidable condition] [yes : Mild front] [no : Mild back] :
    Mild (if condition then front else back) := by
  split
  · exact yes
  · exact no

instance append [first : Mild front] [second : Mild back] : Mild (front ++ back) :=
  ⟨forall_mem_append.mpr ⟨first.all, second.all⟩⟩

instance call (x : Operand) (c : CodeBuffer) : Mild (x.call c).problems := by
  rw [call_eq]
  infer_instance

instance loadValue (x : Operand) (c : CodeBuffer) : Mild (x.loadValue c).problems := by
  rw [loadValue_eq]
  infer_instance

instance loadAndKeep (x : Operand) (c : CodeBuffer) : Mild (x.loadAndKeep c).problems := by
  by_cases method : x.kind = .method
  · simp only [Operand.loadAndKeep, method]
    infer_instance
  · rw [x.loadAndKeep_eq c method]
    infer_instance

instance assign (x y : Operand) (c : CodeBuffer) : Mild (x.assign y c).problems := by
  rw [assign_eq]
  infer_instance

instance step (x : Operand) (up : Bool) (c : CodeBuffer) : Mild (x.step up c).problems := by
  rw [step_eq]
  infer_instance

instance find (t : SymbolTable) (name : String) : Mild (t.find name).problems := by
  unfold SymbolTable.find
  split <;> infer_instance

instance findField (t : SymbolTable) (name : String) (type : TypeId) :
    Mild (t.findField name type).problems := by
  unfold SymbolTable.findField
  split <;> infer_instance

instance findMethod (t : SymbolTable) (name : String) : Mild (t.findMethod name).problems := by
  unfold SymbolTable.findMethod
  split
  · split <;> infer_instance
  · infer_instance

instance ofEntity (id : EntityId) (e : Entity) : Mild (ofEntity id e).problems := by
  unfold Operand.ofEntity
  infer_instance

theorem insert {t : SymbolTable} {kind : EntityKind} {name : String} {type : TypeId}
    {inserted : Reported (EntityId × SymbolTable)} (run : t.insert kind name type = .ok inserted) :
    Mild inserted.problems := by
  unfold SymbolTable.insert at run
  split at run
  · cases run
    infer_instance
  · split at run
    · cases run
    · cases run
      infer_instance

end Mild

namespace Reporter

/-- Whether everything that a reporter has recorded is recorded in another one too, in order and
before anything else. -/
def Continues (r r' : Reporter) : Prop := r.recorded.toList <+: r'.recorded.toList

variable {r r1 r2 : Reporter}

theorem Continues.refl (r : Reporter) : r.Continues r := prefix_refl _

theorem Continues.trans (first : r.Continues r1) (second : r1.Continues r2) : r.Continues r2 :=
  IsPrefix.trans first second

theorem continues_report (r : Reporter) (problem : Problem) : r.Continues (r.report problem) := by
  unfold report Continues
  split <;> simp

theorem continues_records (problems : List Diagnostic) (r : Reporter) :
    r.Continues (problems.foldl record r) := by
  induction problems generalizing r with
  | nil => exact .refl r
  | cons problem problems ih =>
    refine .trans ?_ (ih _)
    simp [Continues, record]

/-- What may become of a reporter while nothing is reported but what has nothing to do with the
grammar. -/
class Permits (allowed : Reporter → Reporter → Prop) : Prop where
  refl : ∀ r, allowed r r
  trans : ∀ {r r₁ r₂}, allowed r r₁ → allowed r₁ r₂ → allowed r r₂
  report : ∀ r {problem : Problem}, problem.isGrammar = false → allowed r (r.report problem)

instance : Permits Continues := ⟨.refl, .trans, fun r problem _ => r.continues_report problem⟩

private theorem permits_reports {allowed : Reporter → Reporter → Prop} [Permits allowed]
    (problems : List Problem) [mild : Mild problems] (r : Reporter) :
    allowed r (problems.foldl report r) := by
  have all := mild.all
  clear mild
  induction problems generalizing r with
  | nil => exact Permits.refl r
  | cons problem problems ih =>
    obtain ⟨head, tail⟩ := forall_mem_cons.mp all
    exact Permits.trans (Permits.report r head) (ih _ tail)

/-- How the tokens and the reporter of a compilation go on together: problems are reported at the
lookahead token, reports are held back, and tokens are consumed, none of them the end of the source.
-/
inductive Logs : TokenStream → Reporter → TokenStream → Reporter → Prop where
  | refl {t r} : Logs t r t r
  | report {t r t' r'} (problem : Problem) (rest : Logs t (r.report problem) t' r') : Logs t r t' r'
  | hold {t r t' r'} (rest : Logs t r.hold t' r') : Logs t r t' r'
  | scan {t r t' r'} (more : t.peek.kind ≠ .eof)
      (rest : Logs t.advance ((t.pending.foldl record r).advance t.advance.peek.pos) t' r') :
      Logs t r t' r'

theorem Logs.trans {t t1 t2 : TokenStream} (first : Logs t r t1 r1) (second : Logs t1 r1 t2 r2) :
    Logs t r t2 r2 := by
  induction first with
  | refl => exact second
  | report problem _ ih => exact .report problem (ih second)
  | hold _ ih => exact .hold (ih second)
  | scan more _ ih => exact .scan more (ih second)

private theorem logs_reports (t : TokenStream) (problems : List Problem) (r : Reporter) :
    Logs t r t (problems.foldl report r) := by
  induction problems generalizing r with
  | nil => exact .refl
  | cons problem problems ih => exact .report problem (ih _)

theorem Logs.continues {t t1 : TokenStream} (logs : Logs t r t1 r1) : r.Continues r1 := by
  induction logs with
  | refl => exact .refl _
  | report problem _ ih => exact (continues_report _ problem).trans ih
  | hold _ ih => exact ih
  | scan _ _ ih => exact (continues_records _ _).trans ih

theorem recorded_of_foldl_record {problems : List Diagnostic}
    (empty : (problems.foldl record r).recorded = #[]) : r.recorded = #[] := by
  have before := continues_records problems r
  rw [Continues, empty, prefix_nil, Array.toList_eq_nil_iff] at before
  exact before

end Reporter

/-- What every part of a compilation keeps: the depth, and what was recorded before. -/
structure Compiler.Keeps (s s' : Compiler) : Prop where
  depth : s'.depth = s.depth
  recorded : s.reporter.Continues s'.reporter

theorem Compiler.Keeps.trans {s s1 s2 : Compiler} (first : s.Keeps s1) (second : s1.Keeps s2) :
    s.Keeps s2 :=
  ⟨second.depth.trans first.depth, first.recorded.trans second.recorded⟩

/-- What every part of a compilation does to the tokens and the reporter, and that it keeps the
depth. -/
structure Compiler.Moves (s s' : Compiler) : Prop where
  depth : s'.depth = s.depth
  logs : Reporter.Logs s.tokens s.reporter s'.tokens s'.reporter

theorem Compiler.Moves.refl (s : Compiler) : s.Moves s := ⟨rfl, .refl⟩

theorem Compiler.Moves.trans {s s1 s2 : Compiler} (first : s.Moves s1) (second : s1.Moves s2) :
    s.Moves s2 :=
  ⟨second.depth.trans first.depth, first.logs.trans second.logs⟩

theorem Compiler.Moves.recorded {s s' : Compiler} (moves : s.Moves s') :
    s.reporter.Continues s'.reporter := moves.logs.continues

theorem Compiler.Moves.toKeeps {s s' : Compiler} (moves : s.Moves s') : s.Keeps s' :=
  ⟨moves.depth, moves.recorded⟩

/-- The same state in front of other tokens and with another reporter. -/
def Compiler.seeing (s : Compiler) (tokens : TokenStream) (reporter : Reporter) : Compiler :=
  { s with tokens, reporter }

namespace Compile

variable {α β : Type} {m n : Compile α} {f : α → Compile β} {s s1 s' : Compiler} {a : α} {b : β}
  {p q : Prop} {condition : Prop} {stop : Token → Bool}

/-! ## Actions that leave the tokens alone -/

/-- Whether an action leaves the tokens alone, does the same whatever they are, and changes the
reporter in an allowed way. -/
class Still (allowed : Reporter → Reporter → Prop) (m : Compile α) : Prop where
  run : ∀ s a s', m s = .ok (a, s') → s'.tokens = s.tokens ∧ s.Moves s' ∧
    allowed s.reporter s'.reporter ∧ ∀ u r, ∃ r', m (s.seeing u r) = .ok (a, s'.seeing u r')

theorem bind_run (run : m s = .ok (a, s1)) : (m >>= f) s = f a s1 := by
  change (m s).bind (fun p => f p.1 p.2) = f a s1
  rw [run]
  rfl

theorem run_bind (run : (m >>= f) s = .ok (b, s')) :
    ∃ a s1, m s = .ok (a, s1) ∧ f a s1 = .ok (b, s') := by
  change (m s).bind (fun p => f p.1 p.2) = .ok (b, s') at run
  cases first : m s with
  | error fault => simp [first, Except.bind] at run
  | ok result => exact ⟨result.1, result.2, rfl, by simpa [first, Except.bind] using run⟩

namespace Still

open Reporter (Permits)

variable {allowed : Reporter → Reporter → Prop} [Permits allowed]

instance pure (a : α) : Still allowed (Pure.pure a : Compile α) where
  run := by
    rintro s _ _ ⟨rfl, rfl⟩
    exact ⟨rfl, .refl s, Permits.refl _, fun _ r => ⟨r, rfl⟩⟩

omit [Permits allowed] in
instance fault (fault : Fault) : Still allowed (throw fault : Compile α) where
  run _ _ _ run := by cases run

instance bind [first : Still allowed m] [second : ∀ a, Still allowed (f a)] :
    Still allowed (m >>= f) where
  run := by
    intro s b s' run
    obtain ⟨a, s1, run1, run2⟩ := run_bind run
    obtain ⟨same1, keeps1, allowed1, again1⟩ := first.run _ _ _ run1
    obtain ⟨same2, keeps2, allowed2, again2⟩ := (second a).run _ _ _ run2
    refine ⟨same2.trans same1, keeps1.trans keeps2, Permits.trans allowed1 allowed2, fun u r => ?_⟩
    obtain ⟨r1, first⟩ := again1 u r
    obtain ⟨r', rest⟩ := again2 u r1
    exact ⟨r', (bind_run first).trans rest⟩

theorem andThen (first : Still allowed m) (second : ∀ a, Still allowed (f a)) :
    Still allowed (m >>= f) := bind

omit [Permits allowed] in
instance ite {condition : Prop} [Decidable condition] [first : Still allowed m]
    [second : Still allowed n] : Still allowed (if condition then m else n) := by
  split
  · exact first
  · exact second

omit [Permits allowed] in
/-- A change of nothing but the reporter. -/
theorem reports {change : Compiler → Reporter}
    (logs : ∀ s : Compiler, Reporter.Logs s.tokens s.reporter s.tokens (change s))
    (permitted : ∀ s : Compiler, allowed s.reporter (change s)) :
    Still allowed (modify fun s : Compiler => { s with reporter := change s } : Compile PUnit) where
  run := by
    rintro s _ _ ⟨rfl, rfl⟩
    exact ⟨rfl, ⟨rfl, logs s⟩, permitted s, fun u r => ⟨change (s.seeing u r), rfl⟩⟩

/-- A change of what is neither tokens nor reporter nor depth, which none of these matters to. -/
theorem modify {change : Compiler → Compiler}
    (same : ∀ s u r, change (s.seeing u r) = (change s).seeing u r ∧ (change s).depth = s.depth) :
    Still allowed (modify change : Compile PUnit) where
  run := by
    rintro s _ _ ⟨rfl, rfl⟩
    have alone : change s = (change s).seeing s.tokens s.reporter := (same s s.tokens s.reporter).1
    have reporter : (change s).reporter = s.reporter := congrArg (·.reporter) alone
    refine ⟨congrArg (·.tokens) alone, ⟨(same s s.tokens s.reporter).2, ?_⟩, ?_, fun u r => ⟨r, ?_⟩⟩
    · rw [alone]
      exact .refl
    · rw [reporter]
      exact Permits.refl _
    · change Except.ok ((), change (s.seeing u r)) = _
      rw [(same s u r).1]

omit [Permits allowed] in
/-- An action that looks at the state, but neither at the tokens nor at the reporter. -/
theorem read {f : Compiler → Compile β} (blind : ∀ s u r, f (s.seeing u r) = f s)
    (rest : ∀ s, Still allowed (f s)) : Still allowed (MonadState.get >>= f) where
  run := by
    intro s b s' run
    obtain ⟨same, keeps, permitted, again⟩ := (rest s).run s b s' run
    refine ⟨same, keeps, permitted, fun u r => ?_⟩
    obtain ⟨r', run'⟩ := again u r
    refine ⟨r', ?_⟩
    rw [← run', ← blind s u r]
    rfl

instance reportSemantic (p : SemanticProblem) : Still allowed (Compile.report (.semantic p)) :=
  reports (fun _ => .report _ .refl) fun s => Permits.report s.reporter rfl

instance reportCapacity (p : CapacityProblem) : Still allowed (Compile.report (.capacity p)) :=
  reports (fun _ => .report _ .refl) fun s => Permits.report s.reporter rfl

omit [Permits allowed] in
instance report (p : Problem) : Still Reporter.Continues (Compile.report p) :=
  reports (fun _ => .report _ .refl) fun s => s.reporter.continues_report p

instance reportIf (condition : Bool) (p : Problem) [Still allowed (Compile.report p)] :
    Still allowed (Compile.reportIf condition p) := ite

instance reportAll (problems : List Problem) [Mild problems] :
    Still allowed (Compile.reportAll problems) :=
  reports (fun s => Reporter.logs_reports s.tokens problems s.reporter)
    fun s => Reporter.permits_reports problems s.reporter

omit [Permits allowed] in
instance holdReports : Still Reporter.Continues holdReports :=
  reports (fun _ => .hold .refl) fun _ => .refl _

instance entityOf (id : EntityId) : Still allowed (entityOf id) :=
  read (fun _ _ _ => rfl) fun _ => inferInstance

instance modifyEntity (id : EntityId) (change : Entity → Entity) :
    Still allowed (modifyEntity id change) := by
  refine read (fun _ _ _ => rfl) fun s => ?_
  split
  · exact modify fun _ _ _ => ⟨rfl, rfl⟩
  · exact fault _

instance requireType (a : TypeId) : Still allowed (requireType a) :=
  read (fun _ _ _ => rfl) fun _ => inferInstance

instance askType (a : TypeId) (question : TypeTable → TypeId → α) :
    Still allowed (askType a question) :=
  (requireType a).andThen fun _ => read (fun _ _ _ => rfl) fun _ => inferInstance

instance comparable (a b : TypeId) : Still allowed (comparable a b) :=
  (requireType a).andThen fun _ => (requireType b).andThen fun _ =>
    read (fun _ _ _ => rfl) fun _ => inferInstance

instance assignable (a b : TypeId) : Still allowed (assignable a b) :=
  (requireType a).andThen fun _ => (requireType b).andThen fun _ =>
    read (fun _ _ _ => rfl) fun _ => inferInstance

instance addArray (elem : TypeId) : Still allowed (addArray elem) := by
  refine (requireType elem).andThen fun _ => ⟨?_⟩
  rintro s _ _ ⟨rfl, rfl⟩
  exact ⟨rfl, ⟨rfl, .refl⟩, Permits.refl _, fun _ r => ⟨r, rfl⟩⟩

instance addClass : Still allowed addClass where
  run := by
    rintro s _ _ ⟨rfl, rfl⟩
    exact ⟨rfl, ⟨rfl, .refl⟩, Permits.refl _, fun _ r => ⟨r, rfl⟩⟩

instance setFields (type : TypeId) (fields : List EntityId) :
    Still allowed (setFields type fields) :=
  (requireType type).andThen fun _ => modify fun _ _ _ => ⟨rfl, rfl⟩

instance declare (kind : EntityKind) (name : String) (type : TypeId) :
    Still allowed (Compile.declare kind name type) where
  run := by
    intro s a s' run
    simp only [Compile.declare, Compiler.seeing] at run ⊢
    split at run
    · cases run
    · next inserted =>
      cases run
      have := Mild.insert inserted
      exact ⟨rfl, ⟨rfl, Reporter.logs_reports _ _ _⟩, Reporter.permits_reports _ _,
        fun _ _ => ⟨_, rfl⟩⟩

instance resolve (find : SymbolTable → Reported EntityId) [∀ t, Mild (find t).problems] :
    Still allowed (resolve find) := read (fun _ _ _ => rfl) fun _ => inferInstance

instance find (name : String) : Still allowed (find name) := resolve _

instance currentScope : Still allowed currentScope := by
  refine read (fun _ _ _ => rfl) fun _ => ?_
  split <;> infer_instance

instance pc : Still allowed pc := read (fun _ _ _ => rfl) fun _ => inferInstance

instance code (change : CodeBuffer → CodeBuffer) : Still allowed (Compile.code change) :=
  modify fun _ _ _ => ⟨rfl, rfl⟩

instance emit (op : Opcode) (operands : List Int) : Still allowed (emit op operands) := code _

instance loadConst (value : Int32) : Still allowed (loadConst value) := code _

instance codeReported (change : CodeBuffer → Reported CodeBuffer) [∀ c, Mild (change c).problems] :
    Still allowed (codeReported change) where
  run := by
    rintro s _ _ ⟨rfl, rfl⟩
    exact ⟨rfl, ⟨rfl, Reporter.logs_reports _ _ _⟩, Reporter.permits_reports _ _, fun _ _ => ⟨_, rfl⟩⟩

instance loadValue (x : Operand) : Still allowed (loadValue x) := bind

instance assign (x y : Operand) : Still allowed (assign x y) := codeReported _

theorem withCode (change : CodeBuffer → Except Fault (α × CodeBuffer)) :
    Still allowed (Compile.withCode change) where
  run := by
    rintro ⟨tokens, reporter, table, code, limits, method, loopExits, depth⟩ a s' run
    simp only [Compile.withCode, Compiler.seeing] at run ⊢
    split at run
    · cases run
      exact ⟨rfl, ⟨rfl, .refl⟩, Permits.refl _, fun _ r => ⟨r, rfl⟩⟩
    · cases run

instance jump (label : Label) : Still allowed (jump label) := withCode _

instance jumpIfTrue (x : Condition) : Still allowed (jumpIfTrue x) := withCode _

instance jumpIfFalse (x : Condition) : Still allowed (jumpIfFalse x) := withCode _

instance here (label : Label) : Still allowed (here label) := withCode _

instance emitCall (x : Operand) : Still allowed (Compile.emitCall x) := by
  unfold Compile.emitCall
  split <;> infer_instance

instance operandOf (name : String) : Still allowed (Compile.operandOf name) := by
  unfold Compile.operandOf
  infer_instance

end Still

section

variable {allowed : Reporter → Reporter → Prop} [Reporter.Permits allowed]

instance (change : SymbolTable → SymbolTable) :
    Still allowed (modify fun s : Compiler => { s with table := change s.table } : Compile PUnit) :=
  .modify fun _ _ _ => ⟨rfl, rfl⟩

instance (table : SymbolTable) :
    Still allowed (modify fun s : Compiler => { s with table } : Compile PUnit) :=
  .modify fun _ _ _ => ⟨rfl, rfl⟩

instance (method : Option EntityId) :
    Still allowed (modify fun s : Compiler => { s with method } : Compile PUnit) :=
  .modify fun _ _ _ => ⟨rfl, rfl⟩

instance (change : List Label → List Label) :
    Still allowed (modify fun s : Compiler => { s with loopExits := change s.loopExits } : Compile PUnit) :=
  .modify fun _ _ _ => ⟨rfl, rfl⟩

instance (loopExits : List Label) :
    Still allowed (modify fun s : Compiler => { s with loopExits } : Compile PUnit) :=
  .modify fun _ _ _ => ⟨rfl, rfl⟩

end

/-! ## Actions that move on -/

/-- What a run of an action keeps. It is the same in front of other tokens if they look alike up to
where it ends. -/
structure Repeats (m : Compile α) (s : Compiler) (a : α) (s' : Compiler) : Prop
    extends s.Moves s' where
  again : ∀ u u' r, s.tokens.Parallel u s'.tokens u' →
    ∃ r', m (s.seeing u r) = .ok (a, s'.seeing u' r')

theorem Repeats.bind (first : Repeats m s a s1) (second : Repeats (f a) s1 b s')
    (consumes1 : s.tokens.Consumes s1.tokens) (consumes2 : s1.tokens.Consumes s'.tokens) :
    Repeats (m >>= f) s b s' := by
  refine ⟨first.toMoves.trans second.toMoves, fun u u' r parallel => ?_⟩
  obtain ⟨u1, front, back⟩ := parallel.split consumes1 consumes2
  obtain ⟨r1, run1⟩ := first.again u u1 r front
  obtain ⟨r', run2⟩ := second.again u1 u' r1 back
  exact ⟨r', (bind_run run1).trans run2⟩

/-- Whether an action consumes only tokens before the end of the source, and at least one of them if
a condition holds. Its run depends on no other tokens. -/
def Reads (m : Compile α) (s : Compiler) (sure : Prop) : Prop :=
  s.tokens.WellFormed → ∀ a s', m s = .ok (a, s') →
    s.tokens.Consumes s'.tokens ∧ Repeats m s a s' ∧ (sure → s.tokens.steps < s'.tokens.steps)

theorem Reads.bindRun (first : Reads m s p)
    (second : ∀ a s', m s = .ok (a, s') → Reads (f a) s' False) : Reads (m >>= f) s p := by
  intro wellFormed b s' run
  obtain ⟨a, s1, run1, run2⟩ := run_bind run
  obtain ⟨consumes1, repeats1, strict⟩ := first wellFormed a s1 run1
  obtain ⟨consumes2, repeats2, _⟩ := second a s1 run1 (consumes1.wellFormed wellFormed) b s' run2
  exact ⟨consumes1.trans consumes2, repeats1.bind repeats2 consumes1 consumes2,
    fun sure => Nat.lt_of_lt_of_le (strict sure) consumes2.steps⟩

theorem Reads.bind (first : Reads m s p) (second : ∀ a s', Reads (f a) s' False) :
    Reads (m >>= f) s p := first.bindRun fun a s' _ => second a s'

/-- An action that does what another one does, whatever follows the lookahead token. -/
theorem Reads.congr (reads : Reads n s p)
    (same : ∀ s1 : Compiler, s1.tokens.WellFormed → s1.tokens.peek.lexeme = s.tokens.peek.lexeme →
      m s1 = n s1) : Reads m s p := by
  intro wellFormed a s' run
  rw [same s wellFormed rfl] at run
  obtain ⟨consumes, repeats, strict⟩ := reads wellFormed a s' run
  refine ⟨consumes, ⟨repeats.toMoves, fun u u' r parallel => ?_⟩, strict⟩
  rw [same (s.seeing u r) parallel.alike.wellFormed parallel.alike.peek]
  exact repeats.again u u' r parallel

/-- What an action does after one that leaves the tokens alone. -/
theorem Reads.skip [still : Still Reporter.Continues m]
    (rest : ∀ a s', s'.tokens = s.tokens → Reads (f a) s' p) : Reads (m >>= f) s p := by
  intro wellFormed b s' run
  obtain ⟨a, s1, run1, run2⟩ := run_bind run
  obtain ⟨same, keeps, _, again⟩ := still.run _ _ _ run1
  have moves := rest a s1 same
  simp only [Reads, same] at moves
  obtain ⟨consumes, repeats, strict⟩ := moves wellFormed b s' run2
  refine ⟨consumes, ⟨keeps.trans repeats.toMoves, fun u u' r parallel => ?_⟩, strict⟩
  obtain ⟨r1, first⟩ := again u r
  rw [← same] at parallel
  obtain ⟨r', second⟩ := repeats.again u u' r1 parallel
  exact ⟨r', (bind_run first).trans second⟩

theorem Reads.still [still : Still Reporter.Continues m] (unsure : ¬ p) : Reads m s p := by
  intro _ a s' run
  obtain ⟨same, keeps, _, again⟩ := still.run _ _ _ run
  refine ⟨by rw [same]; exact .refl, ⟨keeps, fun u u' r parallel => ?_⟩,
    fun sure => absurd sure unsure⟩
  rw [parallel.eq_of_eq same]
  exact again u r

/-- An action after a look at the state. What is seen of tokens is their lexemes. -/
theorem Reads.look {v : Compiler → β} {g : β → Compile α}
    (blind : ∀ u r, s.tokens.Alike u → v (s.seeing u r) = v s) (rest : Reads (g (v s)) s p) :
    Reads (MonadState.get >>= fun s => g (v s)) s p := by
  intro wellFormed a s' run
  obtain ⟨consumes, repeats, strict⟩ := rest wellFormed a s' run
  refine ⟨consumes, ⟨repeats.toMoves, fun u u' r parallel => ?_⟩, strict⟩
  obtain ⟨r', again⟩ := repeats.again u u' r parallel
  refine ⟨r', ?_⟩
  rw [← again, ← blind u r parallel.alike]
  rfl

theorem Reads.lookahead {f : TokenKind → Compile β} (rest : Reads (f s.tokens.peek.kind) s p) :
    Reads (Compile.lookahead >>= f) s p := by
  refine .look (v := fun s => s.tokens.peek.kind) (g := f) (fun u r alike => ?_) rest
  exact congrArg Lexeme.kind alike.peek

/-- An action that uses the token consumed last, wherever it stands. -/
theorem Reads.previous {f : Token → Compile β}
    (blind : ∀ (token : Token) (pos : Position), f ⟨token.lexeme, pos⟩ = f token)
    (rest : Reads (f s.tokens.prev) s p) : Reads (previous >>= f) s p := by
  refine .look (v := fun s => f s.tokens.prev) (g := id) (fun u r alike => ?_) rest
  rw [← blind s.tokens.prev u.prev.pos, ← alike.prev]
  rfl

theorem Reads.get {f : Compiler → Compile β} (blind : ∀ u r, f (s.seeing u r) = f s)
    (rest : Reads (f s) s p) : Reads (MonadState.get >>= f) s p :=
  Reads.look (g := id) (fun u r _ => blind u r) rest

theorem scan_reads (more : s.tokens.peek.kind ≠ .eof) : Reads scan s p := by
  rintro _ _ _ ⟨rfl, rfl⟩
  refine ⟨.step more .refl,
    ⟨⟨rfl, .scan more .refl⟩, fun u u' r parallel => ?_⟩,
    fun _ => ?_⟩
  · rw [parallel.eq_advance rfl]
    exact ⟨_, rfl⟩
  · simp only [steps_advance]
    omega

theorem expect_reads {kind : TokenKind} (more : kind ≠ .eof)
    (sure : p → s.tokens.peek.kind = kind) : Reads (expect kind) s p := by
  refine .lookahead ?_
  split
  · next found =>
    apply scan_reads
    rw [found]
    exact more
  · next missing => exact .still fun holds => missing (sure holds)

theorem expectName_reads (sure : p → s.tokens.peek.kind = .ident) : Reads expectName s p := by
  refine (expect_reads (by simp) sure).bind fun _ s1 => ?_
  exact .previous (fun _ _ => rfl) (.still id)

/-! ## Actions that move on in every state -/

/-- Whether an action consumes only tokens before the end of the source, in whatever state. -/
class Steady (m : Compile α) : Prop where
  reads : ∀ s, Reads m s False

theorem Reads.step (first : Reads m s p) (rest : ∀ a, Steady (f a)) : Reads (m >>= f) s p :=
  first.bind fun a => (rest a).reads

theorem Reads.andThen [steady : ∀ a, Steady (f a)] (first : Reads m s p) : Reads (m >>= f) s p :=
  first.step steady

namespace Steady

instance (priority := low) of_still [Still Reporter.Continues m] : Steady m := ⟨fun _ => .still id⟩

instance bind [first : Steady m] [∀ a, Steady (f a)] : Steady (m >>= f) :=
  ⟨fun s => (first.reads s).andThen⟩

theorem step [Steady m] (rest : ∀ a, Steady (f a)) : Steady (m >>= f) := bind

instance ite {condition : Prop} [Decidable condition] [first : Steady m] [second : Steady n] :
    Steady (if condition then m else n) := by
  split
  · exact first
  · exact second

instance lookahead : Steady Compile.lookahead :=
  ⟨fun _ => .lookahead (f := Pure.pure) (.still id)⟩

/-- A mark that is consumed if it comes next. -/
instance scanMark {mark : Mark} {f : TokenKind → Unit → Compile β} {g : TokenKind → Compile β}
    [∀ kind u, Steady (f kind u)] [others : ∀ kind, Steady (g kind)] :
    Steady (Compile.lookahead >>= fun kind => if kind = .mark mark then scan >>= f kind else g kind)
    where
  reads s := by
    refine .lookahead ?_
    split
    · next found => exact (scan_reads (by simp [found])).andThen
    · exact (others _).reads s

instance expectMark (mark : Mark) : Steady (expect (.mark mark)) :=
  ⟨fun _ => expect_reads (by simp) False.elim⟩

instance expectKeyword (keyword : Keyword) : Steady (expect (.keyword keyword)) :=
  ⟨fun _ => expect_reads (by simp) False.elim⟩

instance expectNumber : Steady (expect .number) := ⟨fun _ => expect_reads (by simp) False.elim⟩

instance expectName : Steady expectName := ⟨fun _ => expectName_reads False.elim⟩

end Steady

/-! ## Skipping -/

/-- The number of tokens up to the first one that satisfies a condition, one token later. -/
theorem countUntil_advance {t : TokenStream} (more : t.rest ≠ []) (goes : stop t.peek = false) :
    t.countUntil stop = t.advance.countUntil stop + 1 := by
  cases rest : t.rest with
  | nil => exact absurd rest more
  | cons next rest' =>
    simp only [countUntil, advance, rest, goes, findIdx_cons]
    cases stop next.token with
    | true => rfl
    | false =>
      simp only [Bool.false_eq_true, if_false, cond_false]
      omega

/-- Skipping is a loop that ends at the first token that satisfies a condition, and the end of the
source does. -/
theorem skipUntil_eq (ends : ∀ token : Token, token.kind = .eof → stop token)
    (wellFormed : s.tokens.WellFormed) :
    skipUntil stop s = if stop s.tokens.peek then .ok ((), s)
      else (scan >>= fun _ => skipUntil stop) s := by
  change scanMany (s.tokens.countUntil stop) s = _
  split
  · next stops =>
    have none : s.tokens.countUntil stop = 0 := by simp [countUntil, stops]
    rw [none]
    rfl
  · next goes =>
    have goes : stop s.tokens.peek = false := by simpa using goes
    have more : s.tokens.rest ≠ [] := by
      intro last
      rw [ends _ (wellFormed.peek_eof last)] at goes
      cases goes
    rw [countUntil_advance more goes]
    rfl

/-- Whether a condition on tokens depends on their lexemes alone. -/
def Blind (stop : Token → Bool) : Prop :=
  ∀ token token' : Token, token'.lexeme = token.lexeme → stop token' = stop token

theorem skipUntil_reads (ends : ∀ token : Token, token.kind = .eof → stop token)
    (blind : Blind stop) (sure : p → stop s.tokens.peek = false) : Reads (skipUntil stop) s p := by
  intro wellFormed
  refine wellFormed.induction (motive := fun t => ∀ (s : Compiler) (p : Prop), s.tokens = t →
    (p → stop t.peek = false) → Reads (skipUntil stop) s p) ?_ s p rfl sure wellFormed
  rintro _ _ ih s p rfl sure
  by_cases stops : stop s.tokens.peek = true
  · have unsure : ¬ p := fun holds => by simp [sure holds] at stops
    refine (Reads.still (m := pure ()) unsure).congr fun s1 wellFormed same => ?_
    rw [skipUntil_eq ends wellFormed, blind _ _ same, if_pos stops]
    rfl
  · have more : s.tokens.peek.kind ≠ .eof := fun ended => stops (ends _ ended)
    have reads : Reads (scan >>= fun _ => skipUntil stop) s p := by
      refine (scan_reads more).bindRun ?_
      rintro _ _ ⟨rfl, rfl⟩
      exact ih more _ _ rfl False.elim
    refine reads.congr fun s1 wellFormed same => ?_
    rw [skipUntil_eq ends wellFormed, blind _ _ same, if_neg stops]

/-- Skips tokens as a rule says, with a number of brackets open. -/
def skipWith (step : Nat → TokenKind → Skip) (brackets : Nat) : Compile Unit := do
  let s ← get
  scanMany (Skip.count step 0 brackets s.tokens.peek.kind s.tokens.rest)

/-- Skipping is a loop that counts the brackets that are open and ends where its rule says so, and
at the end of the source. -/
theorem skipWith_eq {step : Nat → TokenKind → Skip} (ends : ∀ brackets, step brackets .eof = .stop)
    (brackets : Nat) (wellFormed : s.tokens.WellFormed) :
    skipWith step brackets s = match step brackets s.tokens.peek.kind with
      | .stop => .ok ((), s)
      | .last => scan s
      | .more brackets => (scan >>= fun _ => skipWith step brackets) s := by
  change scanMany (Skip.count step 0 brackets s.tokens.peek.kind s.tokens.rest) s = _
  cases rest : s.tokens.rest with
  | nil =>
    rw [wellFormed.peek_eof rest, ends]
    simp only [Skip.count, ends]
    rfl
  | cons next rest' =>
    cases goes : step brackets s.tokens.peek.kind with
    | stop =>
      simp only [Skip.count, goes]
      rfl
    | last =>
      simp only [Skip.count, goes]
      rfl
    | more brackets =>
      have same : Skip.count step 0 brackets next.token.kind rest' = Skip.count step 0 brackets
          s.tokens.advance.peek.kind s.tokens.advance.rest := by simp [advance, rest]
      simp only [Skip.count, goes, Skip.count_seen, same]
      rfl

theorem skipWith_reads (step : Nat → TokenKind → Skip) (brackets : Nat)
    (ends : ∀ brackets, step brackets .eof = .stop)
    (sure : p → step brackets s.tokens.peek.kind ≠ .stop) : Reads (skipWith step brackets) s p := by
  intro wellFormed
  refine wellFormed.induction (motive := fun t => ∀ (brackets : Nat) (s : Compiler) (p : Prop),
    s.tokens = t → (p → step brackets t.peek.kind ≠ .stop) → Reads (skipWith step brackets) s p) ?_
    brackets s p rfl sure wellFormed
  rintro _ _ ih brackets s p rfl sure
  have more {action : Skip} (goes : step brackets s.tokens.peek.kind = action)
      (on : action ≠ .stop) : s.tokens.peek.kind ≠ .eof := by
    intro ended
    rw [ended, ends] at goes
    exact on goes.symm
  have kind {s1 : Compiler} (same : s1.tokens.peek.lexeme = s.tokens.peek.lexeme) :
      s1.tokens.peek.kind = s.tokens.peek.kind := congrArg Lexeme.kind same
  cases goes : step brackets s.tokens.peek.kind with
  | stop =>
    refine (Reads.still (m := pure ()) fun holds => sure holds goes).congr fun s1 wellFormed same => ?_
    rw [skipWith_eq ends brackets wellFormed, kind same, goes]
    rfl
  | last =>
    refine (scan_reads (more goes (by simp))).congr fun s1 wellFormed same => ?_
    rw [skipWith_eq ends brackets wellFormed, kind same, goes]
  | more brackets' =>
    have more := more goes (by simp)
    have reads : Reads (scan >>= fun _ => skipWith step brackets') s p := by
      refine (scan_reads more).bindRun ?_
      rintro _ _ ⟨rfl, rfl⟩
      exact ih more _ _ _ rfl False.elim
    refine reads.congr fun s1 wellFormed same => ?_
    rw [skipWith_eq ends brackets wellFormed, kind same, goes]

instance skipExpression_steady : Steady skipExpression :=
  ⟨fun _ => skipWith_reads .expression 0 (fun _ => rfl) False.elim⟩

theorem skipStatement_reads
    (sure : p → s.tokens.peek.kind ≠ .mark .rightBrace ∧ s.tokens.peek.kind ≠ .eof) :
    Reads skipStatement s p := by
  refine skipWith_reads .statement 0 (fun _ => rfl) fun holds => ?_
  obtain ⟨notBrace, notEnd⟩ := sure holds
  unfold Skip.statement
  split <;> simp_all

theorem recoverStatement_reads
    (sure : p → s.tokens.peek.kind = .keyword .elseKw ∨ s.tokens.peek.kind.boundsStatement = false) :
    Reads recoverStatement s p := by
  have ends (token : Token) (ended : token.kind = .eof) : token.kind.boundsStatement := by
    rw [ended]
    rfl
  have blind : Blind fun token => token.kind.boundsStatement := by
    intro token token' same
    simp only [Token.kind, same]
  refine .lookahead ?_
  split
  · next isElse =>
    refine (scan_reads (by simp [isElse])).bind fun _ s1 => ?_
    refine (skipUntil_reads ends blind False.elim).bind fun _ s2 => ?_
    exact .still id
  · next notElse =>
    refine (skipUntil_reads ends blind fun holds => (sure holds).resolve_left notElse).bind
      fun _ s1 => ?_
    exact .still id

/-- Going on after a problem with a declaration or a method. -/
theorem recover_reads (starts : TokenKind → Bool) (ends : starts .eof = true)
    (more : s.tokens.peek.kind ≠ .eof) :
    Reads (do
      scan
      let s ← MonadState.get
      skipUntil fun token => starts token.kind || s.table.namesType token
      holdReports) s p := by
  refine (scan_reads more).bind fun _ s1 => .get (fun _ _ => rfl) ?_
  refine (skipUntil_reads (fun token ended => ?_) (fun token token' same => ?_) False.elim).bind
    fun _ s2 => ?_
  · simp [ended, ends]
  · simp only [Token.kind, SymbolTable.namesType, Token.name, same]
  · exact .still id

theorem recoverDeclaration_reads (more : s.tokens.peek.kind ≠ .eof) :
    Reads recoverDeclaration s p :=
  recover_reads TokenKind.startsDeclaration rfl more

theorem recoverMethod_reads (more : s.tokens.peek.kind ≠ .eof) : Reads recoverMethod s p :=
  recover_reads TokenKind.startsMethod rfl more

/-! ## Nesting -/

theorem deeper_reads {action tooDeep : Compile α} (otherwise : Reads tooDeep s p)
    (inside : Reads action { s with depth := s.depth + 1 } p) :
    Reads (deeper action tooDeep) s p := by
  refine .get (fun _ _ => rfl) ?_
  split
  · exact otherwise
  · intro wellFormed b s' run
    obtain ⟨_, _, ⟨rfl, rfl⟩, run⟩ := run_bind run
    obtain ⟨a, s1, run1, run⟩ := run_bind run
    obtain ⟨_, _, ⟨rfl, rfl⟩, run⟩ := run_bind run
    obtain ⟨consumes, repeats, strict⟩ := inside wellFormed a s1 run1
    cases run
    refine ⟨consumes, ⟨⟨?_, repeats.logs⟩, fun u u' r parallel => ?_⟩, strict⟩
    · simp [repeats.depth]
    · obtain ⟨r', again⟩ := repeats.again u u' r parallel
      -- Raising the depth and looking at other tokens do not depend on each other.
      change action ({ s.seeing u r with depth := s.depth + 1 }) = _ at again
      exact ⟨r', (bind_run rfl).trans ((bind_run again).trans rfl)⟩

/-! ## Repetition -/

section Unroll

variable {test : TokenKind → Bool} {body : α → Compile α} (ends : test .eof = false)
  (step : ∀ a s, test s.tokens.peek.kind = true → Reads (body a) s True)
include ends step

omit step in
private theorem rest_ne_nil (wellFormed : s.tokens.WellFormed)
    (more : test s.tokens.peek.kind = true) :
    s.tokens.rest ≠ [] := by
  intro last
  rw [wellFormed.peek_eof last, ends] at more
  cases more

/-- Any bound that the tokens left do not exceed allows the same runs. -/
theorem go_eq {left left' : List Scanned} (wellFormed : s.tokens.WellFormed)
    (enough : s.tokens.rest.length ≤ left.length) (enough' : s.tokens.rest.length ≤ left'.length) :
    repeatWhile.go test body left a s = repeatWhile.go test body left' a s := by
  induction left generalizing a s left' with
  | nil =>
    have last : s.tokens.rest = [] := eq_nil_of_length_eq_zero (Nat.le_zero.mp enough)
    cases left' with
    | nil => rfl
    | cons y left' => simp [repeatWhile.go, wellFormed.peek_eof last, ends]
  | cons x left ih =>
    by_cases more : test s.tokens.peek.kind = true
    · cases left' with
      | nil =>
        have := length_pos_iff.mpr (rest_ne_nil ends wellFormed more)
        simp only [length_nil] at enough'
        omega
      | cons y left' =>
        simp only [repeatWhile.go, more, if_true]
        cases run : body a s with
        | error fault => rfl
        | ok result =>
          obtain ⟨consumes, _, strict⟩ := step a s more wellFormed _ _ run
          have steps := consumes.steps_add wellFormed
          have := strict trivial
          simp only [length_cons] at enough enough'
          exact ih (consumes.wellFormed wellFormed) (by omega) (by omega)
    · cases left' with
      | nil => simp [repeatWhile.go, more]
      | cons y left' => simp [repeatWhile.go, more]

/-- A repetition goes on until its test fails. -/
theorem repeatWhile_eq (wellFormed : s.tokens.WellFormed) :
    repeatWhile test body a s = if test s.tokens.peek.kind then (body a >>= repeatWhile test body) s
      else .ok (a, s) := by
  change repeatWhile.go test body s.tokens.rest a s = _
  cases rest : s.tokens.rest with
  | nil => simp [repeatWhile.go, wellFormed.peek_eof rest, ends]
  | cons next rest' =>
    by_cases more : test s.tokens.peek.kind = true
    · simp only [repeatWhile.go, more, if_true]
      change _ = (body a s).bind fun r => repeatWhile.go test body r.2.tokens.rest r.1 r.2
      cases run : body a s with
      | error fault => rfl
      | ok result =>
        obtain ⟨consumes, _, strict⟩ := step a s more wellFormed _ _ run
        have steps := consumes.steps_add wellFormed
        have := strict trivial
        simp only [rest, length_cons] at steps
        exact go_eq ends step (consumes.wellFormed wellFormed) (by omega) (Nat.le_refl _)
    · simp [repeatWhile.go, more]

/-- Whatever a repetition does, it does to the tokens that it consumes. -/
theorem repeatWhile_reads : Reads (repeatWhile test body a) s False := by
  -- The body consumes a token each time, so fewer and fewer are left.
  induction left : s.tokens.rest.length using Nat.strongRecOn generalizing a s with
  | ind left ih =>
    have kind {s1 : Compiler} (same : s1.tokens.peek.lexeme = s.tokens.peek.lexeme) :
        s1.tokens.peek.kind = s.tokens.peek.kind := congrArg Lexeme.kind same
    by_cases more : test s.tokens.peek.kind = true
    · have reads : Reads (body a >>= repeatWhile test body) s False := by
        intro wellFormed
        refine Reads.bindRun (fun wellFormed b s' run => ?_) (fun b s' run wellFormed' => ?_) wellFormed
        · obtain ⟨consumes, repeats, _⟩ := step a s more wellFormed b s' run
          exact ⟨consumes, repeats, False.elim⟩
        · obtain ⟨consumes, _, strict⟩ := step a s more wellFormed b s' run
          have steps := consumes.steps_add wellFormed
          have := strict trivial
          exact ih s'.tokens.rest.length (by omega) rfl wellFormed'
      refine reads.congr fun s1 wellFormed same => ?_
      rw [repeatWhile_eq ends step wellFormed, kind same, if_pos more]
    · refine (Reads.still (m := pure a) id).congr fun s1 wellFormed same => ?_
      rw [repeatWhile_eq ends step wellFormed, kind same, if_neg more]
      rfl

end Unroll

instance {item : α → Compile α} [steady : ∀ a, Steady (item a)] (a : α) :
    Steady (commaSeparated item a) where
  reads s := by
    refine ((steady a).reads s).bind fun a s1 => repeatWhile_reads rfl fun a s comma => ?_
    simp only [beq_iff_eq] at comma
    exact (scan_reads (by simp [comma])).andThen

end Compile

end MicroJava

import Mathlib.Algebra.Group.Int.Defs
import MicroJava.Proofs.Progress.Source

/-! # No source breaks a contract

Compiling ends without a fault whatever the source is. So every label is resolved once, a scope is
open whenever one is needed or closed, a loop is open whenever one is left, every entity and type
that is asked for exists, and only slots inside the code are filled in. In the end everything that
was opened is closed again.
-/

namespace MicroJava

/-! ## Brackets that are skipped -/

namespace Skip

variable {step : Nat → TokenKind → Skip} {opens closes : TokenKind → Bool}

/-- How many more brackets are opened than closed. -/
def balance (opens closes : TokenKind → Bool) (kinds : List TokenKind) : Int :=
  kinds.countP opens - kinds.countP closes

@[simp] theorem balance_nil (opens closes : TokenKind → Bool) : balance opens closes [] = 0 := rfl

private theorem balance_cons (opens closes : TokenKind → Bool) (kind : TokenKind)
    (kinds : List TokenKind) :
    balance opens closes (kind :: kinds) =
      balance opens closes [kind] + balance opens closes kinds := by
  simp only [balance, List.countP_cons, List.countP_nil]
  omega

/-- Whether a rule for skipping counts the brackets that are open and closes no other. -/
structure Counts (step : Nat → TokenKind → Skip) (opens closes : TokenKind → Bool) : Prop where
  more : ∀ brackets kind brackets', step brackets kind = .more brackets' →
    (brackets' : Int) = brackets + balance opens closes [kind]
  last : ∀ brackets kind, step brackets kind = .last → 0 ≤ brackets + balance opens closes [kind]

/-- No bracket is closed that was not opened before: after any number of tokens that are skipped, at
least as many brackets were opened as closed. -/
theorem Counts.balance_nonneg (counts : Counts step opens closes) {brackets : Nat}
    {kind : TokenKind} {rest : List Scanned} {n : Nat}
    (within : n ≤ count step 0 brackets kind rest) :
    0 ≤ brackets + balance opens closes ((kind :: rest.map (·.token.kind)).take n) := by
  induction rest generalizing brackets kind n with
  | nil =>
    cases n with
    | zero => simp
    | succ n =>
      rw [List.map_nil, List.take_of_length_le (by simp)]
      cases goes : step brackets kind with
      | stop => simp [count, goes] at within
      | last => exact counts.last brackets kind goes
      | more brackets' =>
        have := counts.more brackets kind brackets' goes
        omega
  | cons next rest ih =>
    cases n with
    | zero => simp
    | succ n =>
      rw [List.map_cons, List.take_succ_cons, balance_cons]
      cases goes : step brackets kind with
      | stop => simp [count, goes] at within
      | last =>
        have none : n = 0 := by simpa [count, goes] using within
        subst none
        simpa using counts.last brackets kind goes
      | more brackets' =>
        have same := counts.more brackets kind brackets' goes
        simp only [count, goes, count_seen, Nat.add_le_add_iff_right] at within
        have := ih within
        omega

def opensExpression (kind : TokenKind) : Bool :=
  kind == .mark .leftParen || kind == .mark .leftBracket

def closesExpression (kind : TokenKind) : Bool :=
  kind == .mark .rightParen || kind == .mark .rightBracket

theorem expression_counts : Counts expression opensExpression closesExpression := by
  constructor
  · intro brackets kind brackets' goes
    unfold expression at goes
    repeat' split at goes
    all_goals cases goes
    all_goals simp_all [balance, opensExpression, closesExpression]
  · intro brackets kind last
    unfold expression at last
    repeat' split at last
    all_goals cases last

def opensStatement (kind : TokenKind) : Bool := kind == .mark .leftBrace

def closesStatement (kind : TokenKind) : Bool := kind == .mark .rightBrace

theorem statement_counts : Counts statement opensStatement closesStatement := by
  constructor
  · intro brackets kind brackets' goes
    unfold statement at goes
    repeat' split at goes
    all_goals cases goes
    all_goals simp_all [balance, opensStatement, closesStatement]
  · intro brackets kind last
    unfold statement at last
    repeat' split at last
    all_goals cases last
    all_goals simp_all [balance, opensStatement, closesStatement]

/-- No rule for skipping closes a bracket outside of what it skips. -/
theorem balance_skipped (counts : Counts step opens closes) (tokens : TokenStream) {n : Nat}
    (within : n ≤ tokens.countSkipped step) :
    0 ≤ balance opens closes ((tokens.upcoming.map Lexeme.kind).take n) := by
  have nonneg := counts.balance_nonneg within
  simp only [Int.natCast_zero, Int.zero_add] at nonneg
  simpa [TokenStream.upcoming, Token.kind, Function.comp_def] using nonneg

end Skip

/-! ## Contracts -/

namespace Compile

/-- What holds between declarations holds after each of them. -/
theorem globalDeclaration_between {s : Compiler} (between : BetweenMethods s) :
    Ensures globalDeclaration s fun _ s' => BetweenMethods s' := by
  refine (globalDeclaration_announces between.ready).mono ?_
  rintro _ s' ⟨enters, _⟩
  refine ⟨enters.valid, enters.inScope, enters.method.trans between.outside,
    enters.exits.trans between.noLoops, ?_⟩
  rw [enters.code]
  exact between.near

/-- Compiling any source text ends without a fault. Then no statement, no method and no loop is left
open, and only the outermost scope. On the way every part of the compiler keeps the state valid and
ends at the depth where it began, between declarations no method and no loop is open, and no bracket
is closed that was not opened while tokens are skipped. -/
theorem source_faultless (spacing : Nat) (limits : Limits) (text : List Char) :
    (∃ final : Compiler, source (.start (.spaced spacing) limits text) = .ok ((), final) ∧
      final.Valid ∧ final.depth = 0 ∧ final.method = none ∧ final.loopExits = [] ∧
      final.table.OnlyOutermost) ∧
    (∀ s : Compiler, s.Valid → ∀ levels,
      Ensures (expression levels) s (fun x s' =>
        s'.Valid ∧ s'.depth = s.depth ∧ s'.table.Knows x) ∧
      Ensures (statement levels) s fun _ s' => s'.Valid ∧ s'.depth = s.depth) ∧
    (∀ s : Compiler, BetweenMethods s →
      Ensures globalDeclaration s (fun _ s' => BetweenMethods s') ∧
      Ensures methodDeclaration s fun _ s' => BetweenMethods s') ∧
    ∀ (tokens : TokenStream) (n : Nat),
      (n ≤ tokens.countSkipped Skip.expression → 0 ≤ Skip.balance Skip.opensExpression
        Skip.closesExpression ((tokens.upcoming.map Lexeme.kind).take n)) ∧
      (n ≤ tokens.countSkipped Skip.statement → 0 ≤ Skip.balance Skip.opensStatement
        Skip.closesStatement ((tokens.upcoming.map Lexeme.kind).take n)) := by
  refine ⟨?_, fun s valid levels => ⟨?_, ?_⟩, fun s between => ⟨?_, ?_⟩, fun tokens n => ⟨?_, ?_⟩⟩
  · have spaced : (Reporter.spaced spacing).recorded = #[] → spacing ≤ spacing :=
      fun _ => Nat.le_refl _
    obtain ⟨_, final, _, _, run, _, keeps⟩ := source_consumes limits text spaced
    obtain ⟨grows, outermost, _⟩ := (source_ensures (.spaced spacing) limits text spaced).of_run run
    exact ⟨final, run, grows.valid, keeps.depth, grows.method, grows.exits, outermost⟩
  · refine (expression_realizes levels s valid).withRun.mono ?_
    rintro x s' ⟨⟨known, items, extension, _⟩, run⟩
    obtain ⟨_, keeps, _⟩ := expression_reads levels s valid.tokens x s' run
    exact ⟨extension.valid, keeps.depth, known⟩
  · refine (statement_executes levels s valid).withRun.mono ?_
    rintro u s' ⟨⟨items, extension, _⟩, run⟩
    obtain ⟨_, keeps, _⟩ := statement_reads levels False.elim valid.tokens u s' run
    exact ⟨extension.valid, keeps.depth⟩
  · exact globalDeclaration_between between
  · exact (methodDeclaration_builds between).mono fun _ s' builds => builds.between between
  · exact Skip.balance_skipped Skip.expression_counts tokens
  · exact Skip.balance_skipped Skip.statement_counts tokens

end Compile

end MicroJava

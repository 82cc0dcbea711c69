import MicroJava.Proofs.Progress.Basic
import MicroJava.Proofs.Syntax.Tree

/-! # How much of a statement is skipped

A statement that is nested too deeply is skipped without reading it: up to a semicolon outside of
all braces, or to the brace that closes its first block. A statement with an `else` outside of its
blocks is therefore skipped up to the first such `else` only, any other one as a whole.
-/

namespace MicroJava

open Lexeme List

/-! ## Skipping lexemes -/

namespace Skip

/-- The number of tokens that are skipped at the front of some with these kinds. -/
def skipped (step : Nat → TokenKind → Skip) (brackets : Nat) : List TokenKind → Nat
  | [] => 0
  | kind :: kinds =>
    match step brackets kind with
    | .stop => 0
    | .last => 1
    | .more brackets => skipped step brackets kinds + 1

private theorem count_eq (step : Nat → TokenKind → Skip) (brackets : Nat) (kind : TokenKind)
    (rest : List Scanned) :
    count step 0 brackets kind rest = skipped step brackets (kind :: rest.map (·.token.kind)) := by
  induction rest generalizing brackets kind with
  | nil => cases taken : step brackets kind <;> simp [count, skipped, taken]
  | cons next rest ih =>
    simp only [count, count_seen, ih, Nat.zero_add]
    rfl

end Skip

/-- Whether a lexeme can be part of an expression or a condition. -/
def Lexeme.isInner (l : Lexeme) : Bool :=
  l ∉ [.mark .semicolon, .mark .leftBrace, .mark .rightBrace, .eof]

/-- Expressions and conditions are passed wherever they stand. -/
theorem Skip.skipped_inner {lexemes : List Lexeme} (inner : lexemes.all isInner = true)
    (brackets : Nat) (more : List TokenKind) :
    skipped statement brackets (lexemes.map kind ++ more) =
      lexemes.length + skipped statement brackets more := by
  induction lexemes with
  | nil => simp
  | cons l lexemes ih =>
    rw [all_cons, Bool.and_eq_true] at inner
    have goes : statement brackets l.kind = .more brackets := by
      cases l with
      | mark m => cases m <;> first | rfl | cases inner.1
      | eof => cases inner.1
      | _ => rfl
    simp only [map_cons, cons_append, skipped, goes, ih inner.2, length_cons]
    omega

namespace Syntax

/-! ## Lexemes of phrases -/

mutual

@[simp] theorem Expr.inner : (e : Expr) → e.lexemes.all isInner = true
  | .mk negated first rest => by
    cases negated <;> simp [Expr.lexemes, first.inner, Term.chainInner rest, isInner]

theorem Term.chainInner : (rest : List (AddOp × Term)) →
    (Term.chainLexemes rest).all isInner = true
  | [] => rfl
  | (op, item) :: rest => by
    cases op <;> simp [Term.chainLexemes, item.inner, Term.chainInner rest, isInner, AddOp.mark]

theorem Term.inner : (e : Term) → e.lexemes.all isInner = true
  | .mk first rest => by simp [Term.lexemes, first.inner, Factor.chainInner rest]

theorem Factor.chainInner : (rest : List (MulOp × Factor)) →
    (Factor.chainLexemes rest).all isInner = true
  | [] => rfl
  | (op, item) :: rest => by
    cases op <;>
      simp [Factor.chainLexemes, item.inner, Factor.chainInner rest, isInner, MulOp.mark]

theorem Factor.inner : (f : Factor) → f.lexemes.all isInner = true
  | .value d => d.inner
  | .call d args => by simp [Factor.lexemes, d.inner, args.inner]
  | .number _ | .character _ | .object _ => by simp [Factor.lexemes, isInner]
  | .array _ size => by simp [Factor.lexemes, size.inner, isInner]
  | .paren e => by simp [Factor.lexemes, e.inner, isInner]

@[simp] theorem Designator.inner : (d : Designator) → d.lexemes.all isInner = true
  | .mk _ selectors => by simp [Designator.lexemes, Selector.listInner selectors, isInner]

theorem Selector.listInner : (selectors : List Selector) →
    (Selector.listLexemes selectors).all isInner = true
  | [] => rfl
  | .field _ :: rest => by
    simp [Selector.listLexemes, Selector.lexemes, Selector.listInner rest, isInner]
  | .index e :: rest => by
    simp [Selector.listLexemes, Selector.lexemes, e.inner, Selector.listInner rest, isInner]

@[simp] theorem Arguments.inner : (args : Arguments) → args.lexemes.all isInner = true
  | .mk fixed none => by simp [Arguments.lexemes, Expr.listInner fixed, isInner]
  | .mk fixed (some (.mk _ values)) => by
    simp [Arguments.lexemes, VarArguments.lexemes, Expr.listInner fixed, Expr.listInner values,
      isInner]

theorem Expr.listInner : (es : List Expr) → (Expr.listLexemes es).all isInner = true
  | [] => rfl
  | e :: rest => by simp [Expr.listLexemes, e.inner, Expr.tailInner rest]

theorem Expr.tailInner : (es : List Expr) → (Expr.tailLexemes es).all isInner = true
  | [] => rfl
  | e :: rest => by simp [Expr.tailLexemes, e.inner, Expr.tailInner rest, isInner]

end

theorem Compare.inner (c : Compare) : c.lexemes.all isInner = true := by
  have mark : (mark (relationMark c.relation)).isInner = true := by
    cases c.relation <;> rfl
  simp [Compare.lexemes, c.left.inner, c.right.inner, mark]

@[simp] theorem Disjunction.inner (c : Disjunction) : c.lexemes.all isInner = true := by
  have marks : (mark .andAnd).isInner = true ∧ (mark .orOr).isInner = true := by
    decide
  simp [Disjunction.lexemes, Conjunction.lexemes, Compare.inner, marks]

/-! ## Statements -/

namespace Stmt

open Skip

/-- Whether an `else` stands in a statement, outside of all blocks. -/
def hasElse : Stmt → Bool
  | .ifThen _ body | .loop _ body => body.hasElse
  | .ifElse .. => true
  | _ => false

/-- A statement up to its first `else` outside of all blocks. -/
def upToElse : Stmt → Stmt
  | .ifThen c body | .ifElse c body _ => .ifThen c body.upToElse
  | .loop c body => .loop c body.upToElse
  | s => s

/-- What is left of a statement begins with an `else` or is nothing. -/
theorem exists_tail : (s : Stmt) → ∃ tail, s.lexemes = s.upToElse.lexemes ++ tail ∧
    tail.head? = if s.hasElse then some (.keyword .elseKw) else none
  | .ifThen _ body | .loop _ body => by
    obtain ⟨tail, same, head⟩ := body.exists_tail
    exact ⟨tail, by simp [lexemes, upToElse, same], head⟩
  | .ifElse _ body other => by
    obtain ⟨tail, same, head⟩ := body.exists_tail
    refine ⟨tail ++ .keyword .elseKw :: other.lexemes, by simp [lexemes, upToElse, same], ?_⟩
    rw [head?_append, head]
    cases body.hasElse <;> rfl
  | .assign .. | .update .. | .step .. | .call .. | .leave | .yield _ | .read _ | .print ..
  | .block _ | .empty => ⟨[], by simp [upToElse], rfl⟩

/-- What is skipped of a statement and what follows it. -/
def Skips (s : Stmt) (brackets : Nat) : Prop :=
  ∀ more, Skip.skipped .statement brackets (s.lexemes.map Lexeme.kind ++ more) =
    if brackets = 0 then s.upToElse.lexemes.length
    else s.lexemes.length + Skip.skipped .statement brackets more

mutual

/-- Outside of all braces a statement is skipped up to an `else`, between braces it is passed. -/
theorem skips : (s : Stmt) → (brackets : Nat) → s.Skips brackets
  | .assign .., brackets | .call .., brackets | .leave, brackets | .read _, brackets
  | .empty, brackets | .yield none, brackets | .yield (some _), brackets | .print _ none, brackets
  | .print _ (some _), brackets | .step _ true, brackets | .step _ false, brackets => by
    intro more
    cases brackets <;> simp [lexemes, upToElse, skipped_inner, skipped, statement, kind]
    omega
  | .update d op e, brackets => by
    intro more
    rcases op with (_ | _) | (_ | _ | _) <;> cases brackets <;>
      simp [lexemes, upToElse, skipped_inner, skipped, statement, kind, UpdateOp.mark] <;> omega
  | .ifThen c body, brackets | .loop c body, brackets => by
    intro more
    have inner := body.skips brackets more
    cases brackets <;> simp_all [lexemes, upToElse, skipped_inner, skipped, statement, kind]
    omega
  | .ifElse c body other, brackets => by
    intro more
    have inner := body.skips brackets
    have outer := other.skips brackets more
    cases brackets <;> simp_all [Skips, lexemes, upToElse, skipped_inner, skipped, statement, kind]
    omega
  | .block body, brackets => by
    intro more
    have inner := listSkips body brackets
    cases brackets <;> simp [lexemes, upToElse, inner, skipped, statement, kind]
    omega

theorem listSkips : (body : List Stmt) → (brackets : Nat) → ∀ more,
    skipped statement (brackets + 1) ((listLexemes body).map kind ++ more) =
      (listLexemes body).length + skipped statement (brackets + 1) more
  | [], _ => by simp [listLexemes]
  | s :: rest, brackets => by
    intro more
    have first := s.skips (brackets + 1)
    simp only [Skips, Nat.add_eq_zero_iff, Nat.one_ne_zero, and_false, ↓reduceIte] at first
    simp only [listLexemes, map_append, append_assoc, first, listSkips rest brackets more,
      length_append]
    omega

end

end Stmt

end Syntax

/-! ## Skipping statements -/

/-- A state in front of the first token of a text. -/
def Compiler.facing (text : String) : Compiler :=
  { Compiler.start .standard .supported text.toList with
    tokens := (TokenStream.ofSource text.toList).advance }

namespace Compile

open Syntax

private theorem scanMany_consumes {s : Compiler} {front rest : List Lexeme}
    (faces : s.tokens.upcoming = front ++ rest) (more : rest ≠ []) :
    ∃ tokens reporter, scanMany front.length s = .ok ((), { s with tokens, reporter }) ∧
      tokens.upcoming = rest ∧ tokens.steps = s.tokens.steps + front.length := by
  induction front generalizing s with
  | nil => exact ⟨s.tokens, s.reporter, rfl, faces, rfl⟩
  | cons l front ih =>
    rw [TokenStream.upcoming, cons_append, cons.injEq] at faces
    cases left : s.tokens.rest with
    | nil => simp_all
    | cons next others =>
      have behind : s.tokens.advance.upcoming = front ++ rest := by
        simpa [TokenStream.upcoming, TokenStream.advance, left] using faces.2
      obtain ⟨tokens, reporter, run, upcoming, steps⟩ := @ih { s with
        tokens := s.tokens.advance
        reporter := (s.tokens.pending.foldl .record s.reporter).advance
          s.tokens.advance.peek.pos } behind
      refine ⟨tokens, reporter, run, upcoming, ?_⟩
      rw [steps, TokenStream.steps_advance, length_cons]
      omega

/-- Skipping a statement consumes it up to the first `else` outside of its blocks and nothing more,
whatever follows it. So a statement is consumed as a whole exactly if it has no such `else`, and
otherwise the lookahead is an `else` and not what follows the statement. Nothing is compiled. -/
theorem skipStatement_upToElse {s : Compiler} (stmt : Stmt) {rest : List Lexeme} (more : rest ≠ [])
    (faces : s.tokens.upcoming = stmt.lexemes ++ rest) :
    ∃ tokens reporter tail, skipStatement s = .ok ((), { s with tokens, reporter }) ∧
      stmt.lexemes = stmt.upToElse.lexemes ++ tail ∧ tokens.upcoming = tail ++ rest ∧
      tokens.steps = s.tokens.steps + stmt.upToElse.lexemes.length ∧
      tail.head? = if stmt.hasElse then some (.keyword .elseKw) else none := by
  have skipped : s.tokens.countSkipped Skip.statement = stmt.upToElse.lexemes.length := by
    have kinds : s.tokens.peek.kind :: s.tokens.rest.map (·.token.kind) =
        stmt.lexemes.map Lexeme.kind ++ rest.map Lexeme.kind := by
      rw [← map_append, ← faces]
      simp [TokenStream.upcoming, Token.kind]
    rw [TokenStream.countSkipped, Skip.count_eq, kinds]
    exact stmt.skips 0 _
  obtain ⟨tail, same, head⟩ := stmt.exists_tail
  rw [same, append_assoc] at faces
  obtain ⟨tokens, reporter, run, upcoming, steps⟩ := scanMany_consumes faces (by simp [more])
  rw [← skipped] at run
  exact ⟨tokens, reporter, tail, run, same, upcoming, steps, head⟩

/-- A loop is skipped as a whole, even with an `else` in its block and another one behind it. -/
theorem skipStatement_upToElse_loop :
    let zero : Expr := .mk false (.mk (.number 0) []) []
    let never : Disjunction := ⟨⟨⟨zero, .ne, zero⟩, []⟩, []⟩
    let s := Compiler.facing "while (0 != 0) \x7b if (0 != 0) ; else ; \x7d else"
    let loop := Stmt.loop never (.block [.ifElse never .empty .empty])
    s.tokens.upcoming = loop.lexemes ++ [.keyword .elseKw, .eof] ∧
      ∃ tokens reporter, skipStatement s = .ok ((), { s with tokens, reporter }) ∧
        tokens.upcoming = [.keyword .elseKw, .eof] := by
  intro zero never s loop
  have faces : s.tokens.upcoming = loop.lexemes ++ [.keyword .elseKw, .eof] := by decide +kernel
  obtain ⟨tokens, reporter, tail, run, _, upcoming, _, head⟩ :=
    skipStatement_upToElse loop (by simp) faces
  obtain rfl := head?_eq_none_iff.mp head
  exact ⟨faces, tokens, reporter, run, upcoming⟩

/-- Not every statement is skipped as a whole: in front of an `else` skipping ends. -/
theorem skipStatement_else : ¬ ∀ (stmt : Stmt) (next : Lexeme) (rest : List Lexeme) (s : Compiler),
    next ≠ .keyword .elseKw → s.tokens.upcoming = stmt.lexemes ++ next :: rest →
      ∃ s', skipStatement s = .ok ((), s') ∧ s'.tokens.upcoming = next :: rest := by
  intro whole
  let zero : Expr := .mk false (.mk (.number 0) []) []
  obtain ⟨s', run, upcoming⟩ := whole (.ifElse ⟨⟨⟨zero, .ne, zero⟩, []⟩, []⟩ .empty .empty)
    (.mark .rightBrace) [.eof] (.facing "if (0 != 0) ; else ; \x7d") (by decide) (by decide +kernel)
  have left : (skipStatement (.facing "if (0 != 0) ; else ; \x7d")).toOption.map
      (·.2.tokens.upcoming.head?) = some (some (.keyword .elseKw)) := by decide +kernel
  simp [run, upcoming, Except.toOption] at left

end Compile

end MicroJava

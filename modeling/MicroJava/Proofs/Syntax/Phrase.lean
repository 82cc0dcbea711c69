import MicroJava.Proofs.Syntax.Tree

/-! # Where phrases end

Where a phrase ends can be seen from the next lexeme: what follows an expression never continues
one. So an expression or a condition can be told from any text that begins with it and does not
continue it.
-/

namespace MicroJava

open Lexeme List

variable {l : Lexeme}

namespace Lexeme

/-- Whether a lexeme continues a factor: selectors and arguments do. -/
def continuesFactor : Lexeme → Bool
  | mark .period | mark .leftBracket | mark .leftParen => true
  | _ => false

/-- Whether a lexeme continues a term. -/
def continuesTerm : Lexeme → Bool
  | mark .times | mark .slash | mark .percent => true
  | l => l.continuesFactor

/-- Whether a lexeme continues an expression. -/
def continuesExpr : Lexeme → Bool
  | mark .plus | mark .minus => true
  | l => l.continuesTerm

/-- Whether a lexeme is the first one of a factor. -/
def startsFactor : Lexeme → Bool
  | ident _ | number _ | charConst _ | keyword .newKw | mark .leftParen => true
  | _ => false

/-- Whether a lexeme is the first one of an expression. -/
def startsExpr : Lexeme → Bool
  | mark .minus => true
  | l => l.startsFactor

private theorem continuesTerm_of_factor (continues : l.continuesFactor = true) :
    l.continuesTerm = true := by
  fun_cases continuesTerm l <;> simp_all

private theorem continuesExpr_of_term (continues : l.continuesTerm = true) :
    l.continuesExpr = true := by
  fun_cases continuesExpr l <;> simp_all

private theorem startsExpr_of_factor (starts : l.startsFactor = true) : l.startsExpr = true := by
  fun_cases startsExpr l <;> simp_all

end Lexeme

namespace Syntax

variable {continues : Lexeme → Bool} {rest : List Lexeme}

/-! ## Where phrases end -/

/-- Whether the next lexeme of a text does not continue a phrase before it. -/
def Ends (continues : Lexeme → Bool) (rest : List Lexeme) : Prop :=
  ∀ l ∈ rest.head?, continues l = false

@[simp] theorem ends_cons : Ends continues (l :: rest) ↔ continues l = false := by
  simp [Ends]

theorem Ends.mono {continues wider : Lexeme → Bool} (ends : Ends wider rest)
    (weaker : ∀ l, continues l = true → wider l = true) : Ends continues rest := by
  refine fun l next => Bool.eq_false_iff.mpr fun holds => ?_
  have stops := ends l next
  rw [weaker l holds] at stops
  cases stops

/-- Whether the end of a phrase and the phrase itself can be told from any text that begins with it
and does not continue it. -/
def Splits {α : Type} (lexemes : α → List Lexeme) (continues : Lexeme → Bool) (a : α) : Prop :=
  ∀ ⦃b rest rest'⦄, lexemes a ++ rest = lexemes b ++ rest' → Ends continues rest →
    Ends continues rest' → a = b ∧ rest = rest'

section

variable {α β : Type} {first : α → List Lexeme} {lexemes : β → List Lexeme} {inner outer : Lexeme → Bool}

/-- Whether phrases can follow each other, since each begins with a lexeme that does not continue the
one before it. -/
structure Separate (lexemes : β → List Lexeme) (inner outer : Lexeme → Bool) : Prop where
  starts : ∀ b, ∃ l more, lexemes b = l :: more ∧ outer l = true ∧ inner l = false
  weaker : ∀ l, inner l = true → outer l = true

section

variable (separate : Separate lexemes inner outer)

include separate

theorem Separate.ends (items : List β) (ends : Ends outer rest) :
    Ends inner (items.flatMap lexemes ++ rest) := by
  cases items with
  | nil => exact ends.mono separate.weaker
  | cons b items =>
    obtain ⟨l, more, begins, _, stops⟩ := separate.starts b
    simpa [begins] using stops

/-- A phrase continues what is before it. -/
theorem Separate.not_ends (b : β) (items : List β) (rest : List Lexeme) :
    ¬ Ends outer ((b :: items).flatMap lexemes ++ rest) := by
  obtain ⟨l, more, begins, continues, _⟩ := separate.starts b
  simp [begins, continues]

/-- Phrases one after the other, those of the other text among some that are told apart. -/
theorem Separate.cut {valid : β → Prop} {items others : List β} {rest rest' : List Lexeme}
    (splits : ∀ a ∈ items, ∀ ⦃b rest rest'⦄, valid b → lexemes a ++ rest = lexemes b ++ rest' →
      Ends inner rest → Ends inner rest' → a = b ∧ rest = rest') (allValid : ∀ b ∈ others, valid b)
    (same : items.flatMap lexemes ++ rest = others.flatMap lexemes ++ rest')
    (ends : Ends outer rest) (ends' : Ends outer rest') : items = others ∧ rest = rest' := by
  induction items generalizing others with
  | nil =>
    cases others with
    | nil => exact ⟨rfl, same⟩
    | cons b others =>
      rw [show rest = _ from same] at ends
      exact absurd ends (separate.not_ends b others rest')
  | cons a items ih =>
    cases others with
    | nil =>
      rw [show rest' = _ from same.symm] at ends'
      exact absurd ends' (separate.not_ends a items rest)
    | cons b others =>
      simp only [flatMap_cons, append_assoc] at same
      obtain ⟨isValid, areValid⟩ := forall_mem_cons.mp allValid
      obtain ⟨rfl, behind⟩ := splits a mem_cons_self isValid same (separate.ends items ends)
        (separate.ends others ends')
      obtain ⟨rfl, rfl⟩ := ih (fun b member => splits b (mem_cons_of_mem _ member)) areValid
        behind
      exact ⟨rfl, rfl⟩

theorem Separate.splits {items : List β} (splits : ∀ b ∈ items, Splits lexemes inner b) :
    Splits (flatMap lexemes) outer items := by
  intro others rest rest' same ends ends'
  exact separate.cut (fun a member _ _ _ _ => @splits a member _ _ _) (fun _ _ => trivial) same ends ends'

end

/-- A phrase with other phrases behind it. -/
theorem Splits.followedBy {a : α} (splits : Splits first inner a)
    (separate : Separate lexemes inner outer) {items : List β}
    (others : ∀ b ∈ items, Splits lexemes inner b) :
    Splits (fun phrase : α × List β => first phrase.1 ++ phrase.2.flatMap lexemes) outer
      (a, items) := by
  rintro ⟨b, items'⟩ rest rest' same ends ends'
  simp only [append_assoc] at same
  obtain ⟨rfl, behind⟩ := splits same (separate.ends items ends) (separate.ends items' ends')
  obtain ⟨rfl, rfl⟩ := separate.splits others behind ends ends'
  exact ⟨rfl, rfl⟩

end

/-! ## Expressions -/

theorem Term.chainLexemes_eq (rest : List (AddOp × Term)) :
    Term.chainLexemes rest = rest.flatMap fun entry => .mark entry.1.mark :: entry.2.lexemes := by
  induction rest with
  | nil => rfl
  | cons entry rest ih => simp [Term.chainLexemes, ih]

theorem Factor.chainLexemes_eq (rest : List (MulOp × Factor)) :
    Factor.chainLexemes rest = rest.flatMap fun entry => .mark entry.1.mark :: entry.2.lexemes := by
  induction rest with
  | nil => rfl
  | cons entry rest ih => simp [Factor.chainLexemes, ih]

theorem Selector.listLexemes_eq (selectors : List Selector) :
    Selector.listLexemes selectors = selectors.flatMap Selector.lexemes := by
  induction selectors with
  | nil => rfl
  | cons selector selectors ih => simp [Selector.listLexemes, ih]

theorem Expr.tailLexemes_eq (es : List Expr) :
    Expr.tailLexemes es = es.flatMap fun e => .mark .comma :: e.lexemes := by
  induction es with
  | nil => rfl
  | cons e es ih => simp [Expr.tailLexemes, ih]

/-- The first lexeme of a factor. -/
theorem Factor.begins (f : Factor) : ∃ l more, f.lexemes = l :: more ∧ l.startsFactor = true := by
  cases f with
  | value d =>
    obtain ⟨name, selectors⟩ := d
    exact ⟨_, _, rfl, rfl⟩
  | call d args =>
    obtain ⟨name, selectors⟩ := d
    exact ⟨_, _, rfl, rfl⟩
  | number | character | object | array | paren => exact ⟨_, _, rfl, rfl⟩

theorem Term.begins (e : Term) : ∃ l more, e.lexemes = l :: more ∧ l.startsFactor = true := by
  obtain ⟨first, rest⟩ := e
  obtain ⟨l, more, begins, starts⟩ := first.begins
  exact ⟨l, _, by rw [Term.lexemes, begins]; rfl, starts⟩

theorem Expr.begins (e : Expr) : ∃ l more, e.lexemes = l :: more ∧ l.startsExpr = true := by
  obtain ⟨negated, first, rest⟩ := e
  obtain ⟨l, more, begins, starts⟩ := first.begins
  cases negated with
  | true => exact ⟨_, _, rfl, rfl⟩
  | false =>
    exact ⟨l, more ++ Term.chainLexemes rest, by simp [Expr.lexemes, begins],
      startsExpr_of_factor starts⟩

/-- No term begins with a sign. -/
theorem Term.append_ne_minus {e : Term} {rest rest' : List Lexeme} :
    e.lexemes ++ rest ≠ .mark .minus :: rest' := by
  obtain ⟨first, more, begins, starts⟩ := e.begins
  rw [begins]
  rintro ⟨⟩
  cases starts

theorem AddOp.mark_injective {a b : AddOp} (same : a.mark = b.mark) : a = b := by
  cases a <;> cases b <;> first | rfl | cases same

theorem MulOp.mark_injective {a b : MulOp} (same : a.mark = b.mark) : a = b := by
  cases a <;> cases b <;> first | rfl | cases same

private theorem splits_entry {Op φ : Type} {mark : Op → Mark}
    (injective : ∀ {a b}, mark a = mark b → a = b)
    {lexemes : φ → List Lexeme} {entry : Op × φ} (splits : Splits lexemes continues entry.2) :
    Splits (fun entry : Op × φ => .mark (mark entry.1) :: lexemes entry.2) continues entry := by
  rintro ⟨op, item⟩ rest rest' same ends ends'
  simp only [cons_append, cons.injEq, Lexeme.mark.injEq] at same
  obtain ⟨rfl, rfl⟩ := splits same.2 ends ends'
  obtain rfl := injective same.1
  exact ⟨rfl, rfl⟩

/-- A mark before a phrase. -/
theorem Splits.cons {α : Type} {lexemes : α → List Lexeme} {a : α}
    (splits : Splits lexemes continues a) (l : Lexeme) :
    Splits (fun a => l :: lexemes a) continues a := by
  intro b rest rest' same ends ends'
  exact splits (cons.inj same).2 ends ends'

/-- Something between two lexemes that are always the same. -/
theorem Splits.bracketed {α : Type} {lexemes : α → List Lexeme} {a : α}
    (splits : Splits lexemes continues a) (left : Lexeme) {right : Lexeme}
    (stops : continues right = false) (outer : Lexeme → Bool) :
    Splits (fun a => left :: lexemes a ++ [right]) outer a := by
  intro b rest rest' same _ _
  simp only [cons_append, append_assoc, nil_append, cons.injEq, true_and] at same
  obtain ⟨rfl, behind⟩ := splits same (by simpa using stops) (by simpa using stops)
  exact ⟨rfl, (cons.inj behind).2⟩

theorem separate_terms :
    Separate (fun entry : AddOp × Term => .mark entry.1.mark :: entry.2.lexemes)
    continuesTerm continuesExpr where
  starts entry := ⟨_, _, rfl, by cases entry.1 <;> exact ⟨rfl, rfl⟩⟩
  weaker _ := continuesExpr_of_term

theorem separate_factors :
    Separate (fun entry : MulOp × Factor => .mark entry.1.mark :: entry.2.lexemes)
      continuesFactor continuesTerm where
  starts entry := ⟨_, _, rfl, by cases entry.1 <;> exact ⟨rfl, rfl⟩⟩
  weaker _ := continuesTerm_of_factor

/-- Whether a lexeme continues a designator. -/
def continuesDesignator (l : Lexeme) : Bool := l == .mark .period || l == .mark .leftBracket

theorem separate_selectors : Separate Selector.lexemes (fun _ => false) continuesDesignator where
  starts selector := by cases selector <;> exact ⟨_, _, rfl, by decide, rfl⟩
  weaker _ impossible := by cases impossible

/-- Whether a lexeme continues a list of expressions, which may be empty. -/
def continuesList (l : Lexeme) : Bool := l.startsExpr || l == .mark .comma || l.continuesExpr

private theorem separate_exprs : Separate (fun e : Expr => .mark .comma :: e.lexemes) continuesExpr
    continuesList where
  starts e := ⟨_, _, rfl, by decide, by decide⟩
  weaker l continues := by simp [continuesList, continues]

/-- An expression continues an empty list. -/
theorem Expr.not_ends {e : Expr} : ¬ Ends continuesList (e.lexemes ++ rest) := by
  obtain ⟨l, more, begins, starts⟩ := e.begins
  simp [begins, continuesList, starts]

theorem Expr.splits_list {es : List Expr} (splits : ∀ e ∈ es, Splits Expr.lexemes continuesExpr e) :
    Splits Expr.listLexemes continuesList es := by
  intro es' rest rest' same ends ends'
  cases es with
  | nil =>
    cases es' with
    | nil => exact ⟨rfl, same⟩
    | cons e' es' =>
      rw [show rest = _ from same, Expr.listLexemes, append_assoc] at ends
      exact absurd ends Expr.not_ends
  | cons e es =>
    cases es' with
    | nil =>
      rw [show rest' = _ from same.symm, Expr.listLexemes, append_assoc] at ends'
      exact absurd ends' Expr.not_ends
    | cons e' es' =>
      obtain ⟨first, others⟩ := forall_mem_cons.mp splits
      have all := first.followedBy separate_exprs fun e member => (others e member).cons _
      simp only [Expr.listLexemes, Expr.tailLexemes_eq] at same
      obtain ⟨phrase, rfl⟩ := all (b := (e', es')) same ends ends'
      obtain ⟨rfl, rfl⟩ := Prod.mk.inj phrase
      exact ⟨rfl, rfl⟩

theorem designator_factor (l : Lexeme) (continues : continuesDesignator l = true) :
    l.continuesFactor = true := by
  rcases Bool.or_eq_true_iff.mp continues with same | same <;> rw [eq_of_beq same] <;> rfl

theorem Arguments.begins (args : Arguments) : ∃ more, args.lexemes = .mark .leftParen :: more := by
  obtain ⟨fixed, _ | values⟩ := args
  · exact ⟨_, by rw [Arguments.lexemes]; rfl⟩
  · exact ⟨_, by rw [Arguments.lexemes]; rfl⟩

/-- Arguments do not continue a designator. -/
theorem ends_arguments (args : Arguments) (rest : List Lexeme) :
    Ends continuesDesignator (args.lexemes ++ rest) := by
  obtain ⟨fixed, extra⟩ := args
  exact ends_cons.mpr rfl

private theorem not_ends_arguments (args : Arguments) (rest : List Lexeme) :
    ¬ Ends continuesFactor (args.lexemes ++ rest) := by
  obtain ⟨fixed, extra⟩ := args
  cases extra <;> simp [Arguments.lexemes, continuesFactor]

mutual

theorem Expr.splits : (e : Expr) → Splits Expr.lexemes continuesExpr e
  | .mk negated first rest => by
    rintro ⟨negated', first', rest'⟩ r r' same ends ends'
    have splits := first.splits.followedBy separate_terms fun entry member =>
      splits_entry AddOp.mark_injective (Term.splits_mem rest entry member)
    have sign : negated = negated' := by
      cases negated <;> cases negated' <;> simp only [Expr.lexemes, ↓reduceIte, Bool.false_eq_true,
        nil_append, cons_append, append_assoc] at same
      · rfl
      · exact absurd same Term.append_ne_minus
      · exact absurd same.symm Term.append_ne_minus
      · rfl
    subst sign
    simp only [Expr.lexemes, append_assoc, append_cancel_left_eq, Term.chainLexemes_eq] at same
    obtain ⟨phrase, rfl⟩ := splits (b := (first', rest')) (by simpa using same) ends ends'
    obtain ⟨rfl, rfl⟩ := Prod.mk.inj phrase
    exact ⟨rfl, rfl⟩

theorem Term.splits : (e : Term) → Splits Term.lexemes continuesTerm e
  | .mk first rest => by
    rintro ⟨first', rest'⟩ r r' same ends ends'
    have splits := first.splits.followedBy separate_factors fun entry member =>
      splits_entry MulOp.mark_injective (Factor.splits_mem rest entry member)
    simp only [Term.lexemes, Factor.chainLexemes_eq] at same
    obtain ⟨phrase, rfl⟩ := splits (b := (first', rest')) same ends ends'
    obtain ⟨rfl, rfl⟩ := Prod.mk.inj phrase
    exact ⟨rfl, rfl⟩

theorem Term.splits_mem : (rest : List (AddOp × Term)) → ∀ entry ∈ rest,
    Splits Term.lexemes continuesTerm entry.2
  | [] => by simp
  | (_, item) :: rest => forall_mem_cons.mpr ⟨item.splits, Term.splits_mem rest⟩

theorem Factor.splits_mem : (rest : List (MulOp × Factor)) → ∀ entry ∈ rest,
    Splits Factor.lexemes continuesFactor entry.2
  | [] => by simp
  | (_, item) :: rest => forall_mem_cons.mpr ⟨item.splits, Factor.splits_mem rest⟩

theorem Factor.splits : (f : Factor) → Splits Factor.lexemes continuesFactor f
  | .value d => by
    have splits := d.splits
    rintro (d' | ⟨d', args⟩ | _ | _ | _ | _ | _) r r' same ends ends'
    · obtain ⟨rfl, rfl⟩ := splits same (ends.mono designator_factor) (ends'.mono designator_factor)
      exact ⟨rfl, rfl⟩
    · simp only [Factor.lexemes, append_assoc] at same
      obtain ⟨_, rfl⟩ := splits same (ends.mono designator_factor) (ends_arguments args r')
      exact absurd ends (not_ends_arguments args r')
    all_goals
      obtain ⟨name, selectors⟩ := d
      simp [Factor.lexemes, Designator.lexemes] at same
  | .call d args => by
    have splits := d.splits
    have splits' := args.splits
    rintro (d' | ⟨d', args'⟩ | _ | _ | _ | _ | _) r r' same ends ends'
    · simp only [Factor.lexemes, append_assoc] at same
      obtain ⟨_, rfl⟩ := splits same (ends_arguments args r) (ends'.mono designator_factor)
      exact absurd ends' (not_ends_arguments args r)
    · simp only [Factor.lexemes, append_assoc] at same
      obtain ⟨rfl, behind⟩ := splits same (ends_arguments args r) (ends_arguments args' r')
      obtain ⟨rfl, rfl⟩ := splits' behind (by simp [Ends]) (by simp [Ends])
      exact ⟨rfl, rfl⟩
    all_goals
      obtain ⟨name, selectors⟩ := d
      simp [Factor.lexemes, Designator.lexemes] at same
  | .number value => by
    rintro (⟨⟨name, selectors⟩⟩ | ⟨⟨name, selectors⟩, args⟩ | _ | _ | _ | _ | _) r r' same _ _ <;>
      simp_all [Factor.lexemes, Designator.lexemes]
  | .character value => by
    rintro (⟨⟨name, selectors⟩⟩ | ⟨⟨name, selectors⟩, args⟩ | _ | _ | _ | _ | _) r r' same _ _ <;>
      simp_all [Factor.lexemes, Designator.lexemes]
  | .object type => by
    rintro (⟨⟨name, selectors⟩⟩ | ⟨⟨name, selectors⟩, args⟩ | _ | _ | _ | _ | _) r r' same ends ends' <;>
      simp_all [Factor.lexemes, Designator.lexemes, continuesFactor]
  | .array type size => by
    have splits := size.splits
    rintro (⟨⟨name, selectors⟩⟩ | ⟨⟨name, selectors⟩, args⟩ | _ | _ | _ | ⟨type', size'⟩ | _)
      r r' same ends ends'
    case array =>
      simp only [Factor.lexemes, cons_append, nil_append, cons.injEq, true_and, ident.injEq] at same
      obtain ⟨rfl, same⟩ := same
      obtain ⟨rfl, rfl⟩ := splits.bracketed (.mark .leftBracket)
        (show continuesExpr (.mark .rightBracket) = false from rfl) (fun _ => false)
        (congrArg (_ :: ·) same) (by simp [Ends]) (by simp [Ends])
      exact ⟨rfl, rfl⟩
    case object =>
      simp only [Factor.lexemes, cons_append, nil_append, cons.injEq, true_and] at same
      simp [← same.2, continuesFactor] at ends'
    all_goals simp [Factor.lexemes, Designator.lexemes] at same
  | .paren e => by
    have splits := e.splits.bracketed (.mark .leftParen)
      (show continuesExpr (.mark .rightParen) = false from rfl) continuesFactor
    rintro (⟨⟨name, selectors⟩⟩ | ⟨⟨name, selectors⟩, args⟩ | _ | _ | _ | _ | e') r r' same ends ends'
    case paren =>
      obtain ⟨rfl, rfl⟩ := splits same ends ends'
      exact ⟨rfl, rfl⟩
    all_goals simp [Factor.lexemes, Designator.lexemes] at same

theorem Designator.splits : (d : Designator) → Splits Designator.lexemes continuesDesignator d
  | .mk name selectors => by
    rintro ⟨name', selectors'⟩ r r' same ends ends'
    simp only [Designator.lexemes, cons_append, cons.injEq, ident.injEq,
      Selector.listLexemes_eq] at same
    obtain ⟨rfl, same⟩ := same
    obtain ⟨rfl, rfl⟩ := separate_selectors.splits (Selector.splits_mem selectors) same ends ends'
    exact ⟨rfl, rfl⟩

theorem Selector.splits_mem : (selectors : List Selector) → ∀ selector ∈ selectors,
    Splits Selector.lexemes (fun _ => false) selector
  | [] => by simp
  | selector :: selectors =>
    forall_mem_cons.mpr ⟨selector.splits, Selector.splits_mem selectors⟩

theorem Selector.splits : (selector : Selector) →
    Splits Selector.lexemes (fun _ => false) selector
  | .field name => by
    rintro (name' | e) r r' same _ _ <;> simp_all [Selector.lexemes]
  | .index e => by
    rintro (name' | e') r r' same ends ends'
    · simp [Selector.lexemes] at same
    · obtain ⟨rfl, rfl⟩ := e.splits.bracketed (.mark .leftBracket)
        (show continuesExpr (.mark .rightBracket) = false from rfl) (fun _ => false)
        same ends ends'
      exact ⟨rfl, rfl⟩

theorem Arguments.splits : (args : Arguments) → Splits Arguments.lexemes (fun _ => false) args
  | .mk fixed none => by
    have splits := Expr.splits_list (Expr.splits_mem fixed)
    rintro ⟨fixed', _ | ⟨size', values'⟩⟩ r r' same _ _ <;>
      simp only [Arguments.lexemes, VarArguments.lexemes, cons_append, append_assoc,
        nil_append, cons.injEq, true_and] at same
    · obtain ⟨rfl, behind⟩ := splits same (ends_cons.mpr rfl) (ends_cons.mpr rfl)
      exact ⟨rfl, (cons.inj behind).2⟩
    · obtain ⟨_, behind⟩ := splits same (ends_cons.mpr rfl) (ends_cons.mpr rfl)
      cases behind
  | .mk fixed (some (.mk size values)) => by
    have splits := Expr.splits_list (Expr.splits_mem fixed)
    have splits' := Expr.splits_list (Expr.splits_mem values)
    rintro ⟨fixed', _ | ⟨size', values'⟩⟩ r r' same _ _ <;>
      simp only [Arguments.lexemes, VarArguments.lexemes, cons_append, append_assoc,
        nil_append, cons.injEq, true_and] at same
    · obtain ⟨_, behind⟩ := splits same (ends_cons.mpr rfl) (ends_cons.mpr rfl)
      cases behind
    · obtain ⟨rfl, behind⟩ := splits same (ends_cons.mpr rfl) (ends_cons.mpr rfl)
      simp only [cons.injEq, true_and, number.injEq] at behind
      obtain ⟨rfl, behind⟩ := behind
      obtain ⟨rfl, last⟩ := splits' behind (ends_cons.mpr rfl) (ends_cons.mpr rfl)
      exact ⟨rfl, (cons.inj last).2⟩

theorem Expr.splits_mem : (es : List Expr) → ∀ e ∈ es,
    Splits Expr.lexemes continuesExpr e
  | [] => by simp
  | e :: es => forall_mem_cons.mpr ⟨e.splits, Expr.splits_mem es⟩

end

/-! ## Conditions -/

private theorem relationMark_injective {a b : Comparison} (same : relationMark a = relationMark b) :
    a = b := by
  cases a <;> cases b <;> first | rfl | cases same

theorem Compare.splits (c : Compare) : Splits Compare.lexemes continuesExpr c := by
  rintro c' r r' same ends ends'
  have stops (relation : Comparison) (rest : List Lexeme) :
      Ends continuesExpr (.mark (relationMark relation) :: rest) := by
    cases relation <;> exact ends_cons.mpr rfl
  simp only [Compare.lexemes, append_assoc, cons_append] at same
  obtain ⟨left, behind⟩ := c.left.splits same (stops _ _) (stops _ _)
  simp only [cons.injEq, mark.injEq] at behind
  obtain ⟨right, rest⟩ := c.right.splits behind.2 ends ends'
  have relation := relationMark_injective behind.1
  cases c
  cases c'
  simp_all

/-- Whether a lexeme continues a conjunction. -/
def continuesConjunction (l : Lexeme) : Bool := l == .mark .andAnd || l.continuesExpr

/-- Whether a lexeme continues a condition. -/
def continuesDisjunction (l : Lexeme) : Bool := l == .mark .orOr || continuesConjunction l

theorem separate_compares : Separate (fun c : Compare => .mark .andAnd :: c.lexemes)
    continuesExpr continuesConjunction where
  starts _ := ⟨_, _, rfl, by decide, by decide⟩
  weaker l continues := by simp [continuesConjunction, continues]

theorem separate_conjunctions : Separate (fun c : Conjunction => .mark .orOr :: c.lexemes)
    continuesConjunction continuesDisjunction where
  starts _ := ⟨_, _, rfl, by decide, by decide⟩
  weaker l continues := by simp [continuesDisjunction, continues]

theorem Conjunction.splits (c : Conjunction) :
    Splits Conjunction.lexemes continuesConjunction c := by
  rintro ⟨first', others'⟩ r r' same ends ends'
  obtain ⟨first, others⟩ := c
  have splits := first.splits.followedBy separate_compares
    fun c (_ : c ∈ others) => c.splits.cons _
  obtain ⟨phrase, rfl⟩ := splits (b := (first', others')) same ends ends'
  obtain ⟨rfl, rfl⟩ := Prod.mk.inj phrase
  exact ⟨rfl, rfl⟩

theorem Disjunction.splits (c : Disjunction) :
    Splits Disjunction.lexemes continuesDisjunction c := by
  rintro ⟨first', others'⟩ r r' same ends ends'
  obtain ⟨first, others⟩ := c
  have splits := first.splits.followedBy separate_conjunctions
    fun c (_ : c ∈ others) => c.splits.cons _
  obtain ⟨phrase, rfl⟩ := splits (b := (first', others')) same ends ends'
  obtain ⟨rfl, rfl⟩ := Prod.mk.inj phrase
  exact ⟨rfl, rfl⟩

end Syntax

end MicroJava

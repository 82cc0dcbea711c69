import MicroJava.Proofs.Syntax.Tree

/-! # Where designators are used

The designators in a method body, each with the arguments right behind it if there are any, and
which of their names mean methods. A call stands behind the uses in its arguments, as its
instruction stands behind theirs.
-/

namespace MicroJava.Syntax

open Selector List

/-- A designator in a method body, and the arguments right behind it. -/
structure Use where
  designator : Designator
  args : Option Arguments

def Designator.name : Designator → String
  | .mk name _ => name

def Designator.selectors : Designator → List Selector
  | .mk _ selectors => selectors

/-! ## Uses in phrases -/

mutual

/-- The designators that an expression uses. -/
def Expr.uses : Expr → List Use
  | .mk _ first rest => first.uses ++ Term.chainUses rest

def Term.chainUses : List (AddOp × Term) → List Use
  | [] => []
  | (_, item) :: rest => item.uses ++ Term.chainUses rest

def Term.uses : Term → List Use
  | .mk first rest => first.uses ++ Factor.chainUses rest

def Factor.chainUses : List (MulOp × Factor) → List Use
  | [] => []
  | (_, item) :: rest => item.uses ++ Factor.chainUses rest

def Factor.uses : Factor → List Use
  | .value d => ⟨d, none⟩ :: d.innerUses
  | .call d args => d.innerUses ++ args.uses ++ [⟨d, some args⟩]
  | .array _ size => size.uses
  | .paren e => e.uses
  | .number _ | .character _ | .object _ => []

/-- What the selectors of a designator use. -/
def Designator.innerUses : Designator → List Use
  | .mk _ selectors => Selector.listUses selectors

def Selector.listUses : List Selector → List Use
  | [] => []
  | selector :: rest => selector.uses ++ Selector.listUses rest

def Selector.uses : Selector → List Use
  | .field _ => []
  | .index e => e.uses

def Arguments.uses : Arguments → List Use
  | .mk fixed extra =>
    Expr.listUses fixed ++
      match extra with
      | none => []
      | some values => values.uses

def VarArguments.uses : VarArguments → List Use
  | .mk _ values => Expr.listUses values

def Expr.listUses : List Expr → List Use
  | [] => []
  | e :: rest => e.uses ++ Expr.listUses rest

end

def Compare.uses (c : Compare) : List Use := c.left.uses ++ c.right.uses

def Conjunction.uses (c : Conjunction) : List Use := c.compares.flatMap Compare.uses

def Disjunction.uses (c : Disjunction) : List Use := c.conjunctions.flatMap Conjunction.uses

mutual

/-- The designators that a statement uses. -/
def Stmt.uses : Stmt → List Use
  | .assign d e | .update d _ e => ⟨d, none⟩ :: d.innerUses ++ e.uses
  | .step d _ | .read d => ⟨d, none⟩ :: d.innerUses
  | .call d args => d.innerUses ++ args.uses ++ [⟨d, some args⟩]
  | .ifThen c body | .loop c body => c.uses ++ body.uses
  | .ifElse c body other => c.uses ++ body.uses ++ other.uses
  | .yield e => e.elim [] Expr.uses
  | .print e _ => e.uses
  | .block body => Stmt.listUses body
  | .leave | .empty => []

def Stmt.listUses : List Stmt → List Use
  | [] => []
  | s :: rest => s.uses ++ Stmt.listUses rest

end

/-- The designators that the body of a method uses. -/
def Method.uses (m : Method) : List Use := Stmt.listUses m.body

/-! ## What follows a name -/

namespace Use

def name (u : Use) : String := u.designator.name

/-- The lexemes of a use behind its name. -/
def followers (u : Use) : List Lexeme :=
  Selector.listLexemes u.designator.selectors ++ u.args.elim [] Arguments.lexemes

/-- All lexemes of a use. -/
def lexemes (u : Use) : List Lexeme := .ident u.name :: u.followers

/-- Whether an argument list follows the name at once. -/
def IsCall (u : Use) : Prop := u.followers.head? = some (.mark .leftParen)

/-- Whether a period follows the name at once. -/
def IsSelected (u : Use) : Prop := u.followers.head? = some (.mark .period)

instance (u : Use) : Decidable u.IsCall := inferInstanceAs (Decidable (_ = _))

instance (u : Use) : Decidable u.IsSelected := inferInstanceAs (Decidable (_ = _))

theorem isCall_bare (name : String) (args : Arguments) : IsCall ⟨.mk name [], some args⟩ := by
  obtain ⟨fixed, extra⟩ := args
  change (listLexemes [] ++ Arguments.lexemes _).head? = _
  cases extra with
  | none =>
    rw [listLexemes, Arguments.lexemes]
    rfl
  | some values =>
    rw [listLexemes, Arguments.lexemes]
    rfl

theorem isSelected_field (name field : String) (rest : List Selector) (args : Option Arguments) :
    IsSelected ⟨.mk name (.field field :: rest), args⟩ := by
  simp [IsSelected, followers, Designator.selectors, Selector.listLexemes, Selector.lexemes]

theorem IsCall.not_isSelected {u : Use} (called : u.IsCall) : ¬ u.IsSelected := by
  unfold IsCall at called
  simp [IsSelected, called]

end Use

/-! ## Uses in the text -/

/-- Whether uses are all written in a list of lexemes. -/
def Written (uses : List Use) (lexemes : List Lexeme) : Prop := ∀ u ∈ uses, u.lexemes <:+: lexemes

namespace Written

variable {uses more : List Use} {lexemes front back : List Lexeme}

theorem nil : Written [] lexemes := by simp [Written]

theorem within (written : Written uses lexemes) (part : lexemes <:+: front) : Written uses front :=
  fun u member => (written u member).trans part

theorem append (first : Written uses front) (second : Written more back) :
    Written (uses ++ more) (front ++ back) := by
  intro u member
  rcases mem_append.mp member with member | member
  · exact (first u member).trans (prefix_append _ _).isInfix
  · exact (second u member).trans (suffix_append _ _).isInfix

theorem before (written : Written uses lexemes) (front : List Lexeme) :
    Written uses (front ++ lexemes) := written.within (suffix_append _ _).isInfix

theorem behind (written : Written uses lexemes) (back : List Lexeme) :
    Written uses (lexemes ++ back) := written.within (prefix_append _ _).isInfix

theorem flatMap {α : Type} {f : α → List Use} {g : α → List Lexeme} {all : List α}
    (each : ∀ a ∈ all, Written (f a) (g a)) : Written (all.flatMap f) (all.flatMap g) := by
  induction all with
  | nil => exact nil
  | cons a rest ih =>
    exact (each a (by simp)).append (ih fun b member => each b (mem_cons_of_mem _ member))

end Written

theorem Designator.lexemes_eq (d : Designator) :
    d.lexemes = .ident d.name :: listLexemes d.selectors := by
  cases d
  rw [Designator.lexemes]
  rfl

/-- A designator with the uses in its selectors. -/
theorem Written.designator {d : Designator} (inner : Written d.innerUses d.lexemes) :
    Written (⟨d, none⟩ :: d.innerUses) d.lexemes := by
  intro u member
  rcases mem_cons.mp member with rfl | member
  · simp [Use.lexemes, Use.name, Use.followers, Designator.lexemes_eq]
  · exact inner u member

/-- A call with the uses in it. -/
theorem Written.call {d : Designator} {args : Arguments} (inner : Written d.innerUses d.lexemes)
    (passed : Written args.uses args.lexemes) :
    Written (d.innerUses ++ args.uses ++ [⟨d, some args⟩]) (d.lexemes ++ args.lexemes) := by
  intro u member
  rcases mem_append.mp member with member | member
  · exact inner.append passed u member
  · obtain rfl := mem_singleton.mp member
    simp [Use.lexemes, Use.name, Use.followers, Designator.lexemes_eq]

mutual

theorem Expr.written : (e : Expr) → Written e.uses e.lexemes
  | .mk negated first rest => by
    rw [Expr.uses, Expr.lexemes, append_assoc]
    exact ((Term.written first).append (Term.chainWritten rest)).before _

theorem Term.chainWritten : (rest : List (AddOp × Term)) →
    Written (Term.chainUses rest) (Term.chainLexemes rest)
  | [] => .nil
  | (op, item) :: rest => by
    rw [Term.chainUses, Term.chainLexemes]
    exact ((Term.written item).append (Term.chainWritten rest)).before [_]

theorem Term.written : (e : Term) → Written e.uses e.lexemes
  | .mk first rest => by
    rw [Term.uses, Term.lexemes]
    exact (Factor.written first).append (Factor.chainWritten rest)

theorem Factor.chainWritten : (rest : List (MulOp × Factor)) →
    Written (Factor.chainUses rest) (Factor.chainLexemes rest)
  | [] => .nil
  | (op, item) :: rest => by
    rw [Factor.chainUses, Factor.chainLexemes]
    exact ((Factor.written item).append (Factor.chainWritten rest)).before [_]

theorem Factor.written : (f : Factor) → Written f.uses f.lexemes
  | .value d => by
    rw [Factor.uses, Factor.lexemes]
    exact .designator (Designator.innerWritten d)
  | .call d args => by
    rw [Factor.uses, Factor.lexemes]
    exact .call (Designator.innerWritten d) (Arguments.written args)
  | .array type size => by
    rw [Factor.uses, Factor.lexemes]
    exact ((Expr.written size).before _).behind _
  | .paren e => by
    rw [Factor.uses, Factor.lexemes]
    exact ((Expr.written e).before [_]).behind _
  | .number _ | .character _ | .object _ => by
    rw [Factor.uses]
    exact .nil

theorem Designator.innerWritten : (d : Designator) → Written d.innerUses d.lexemes
  | .mk name selectors => by
    rw [Designator.innerUses, Designator.lexemes]
    exact (Selector.listWritten selectors).before [_]

theorem Selector.listWritten : (selectors : List Selector) →
    Written (listUses selectors) (listLexemes selectors)
  | [] => .nil
  | selector :: rest => by
    rw [listUses, listLexemes]
    exact (Selector.written selector).append (Selector.listWritten rest)

theorem Selector.written : (selector : Selector) → Written selector.uses selector.lexemes
  | .field _ => by
    rw [uses]
    exact .nil
  | .index e => by
    rw [uses, lexemes]
    exact ((Expr.written e).before [_]).behind _

theorem Arguments.written : (args : Arguments) → Written args.uses args.lexemes
  | .mk fixed none => by
    rw [Arguments.uses, Arguments.lexemes]
    exact (((Expr.listWritten fixed).append .nil).before [_]).behind _
  | .mk fixed (some values) => by
    rw [Arguments.uses, Arguments.lexemes]
    exact (((Expr.listWritten fixed).append (VarArguments.written values)).before [_]).behind _

theorem VarArguments.written : (values : VarArguments) → Written values.uses values.lexemes
  | .mk size values => by
    rw [VarArguments.uses, VarArguments.lexemes]
    exact (Expr.listWritten values).before _

theorem Expr.listWritten : (es : List Expr) → Written (Expr.listUses es) (Expr.listLexemes es)
  | [] => .nil
  | e :: rest => by
    rw [Expr.listUses, Expr.listLexemes]
    exact (Expr.written e).append (Expr.tailWritten rest)

theorem Expr.tailWritten : (es : List Expr) → Written (Expr.listUses es) (Expr.tailLexemes es)
  | [] => .nil
  | e :: rest => by
    rw [Expr.listUses, Expr.tailLexemes]
    exact ((Expr.written e).append (Expr.tailWritten rest)).before [_]

end

theorem Compare.written (c : Compare) : Written c.uses c.lexemes :=
  (Expr.written c.left).append ((Expr.written c.right).before [_])

theorem Conjunction.written (c : Conjunction) : Written c.uses c.lexemes :=
  (Compare.written c.first).append (.flatMap fun other _ => (Compare.written other).before [_])

theorem Disjunction.written (c : Disjunction) : Written c.uses c.lexemes :=
  (Conjunction.written c.first).append
    (.flatMap fun other _ => (Conjunction.written other).before [_])

mutual

theorem Stmt.written : (s : Stmt) → Written s.uses s.lexemes
  | .assign d e | .update d _ e => by
    rw [Stmt.uses, Stmt.lexemes]
    exact ((Written.designator (Designator.innerWritten d)).append
      ((Expr.written e).before [_])).behind _
  | .step d _ => by
    rw [Stmt.uses, Stmt.lexemes]
    exact (Written.designator (Designator.innerWritten d)).behind _
  | .read d => by
    rw [Stmt.uses, Stmt.lexemes]
    exact ((Written.designator (Designator.innerWritten d)).before _).behind _
  | .call d args => by
    rw [Stmt.uses, Stmt.lexemes]
    exact (Written.call (Designator.innerWritten d) (Arguments.written args)).behind _
  | .ifThen c body | .loop c body => by
    rw [Stmt.uses, Stmt.lexemes]
    exact ((Disjunction.written c).before _).append ((Stmt.written body).before [_])
  | .ifElse c body other => by
    rw [Stmt.uses, Stmt.lexemes]
    exact (((Disjunction.written c).before _).append ((Stmt.written body).before [_])).append
      ((Stmt.written other).before [_])
  | .yield none => by
    rw [Stmt.uses]
    exact .nil
  | .yield (some e) => by
    rw [Stmt.uses, Stmt.lexemes]
    exact ((Expr.written e).before [_]).behind _
  | .print e width => by
    rw [Stmt.uses, Stmt.lexemes]
    exact (((Expr.written e).before _).behind _).behind _
  | .block body => by
    rw [Stmt.uses, Stmt.lexemes]
    exact ((Stmt.listWritten body).before [_]).behind _
  | .leave | .empty => by
    rw [Stmt.uses]
    exact .nil

theorem Stmt.listWritten : (body : List Stmt) →
    Written (Stmt.listUses body) (Stmt.listLexemes body)
  | [] => .nil
  | s :: rest => by
    rw [Stmt.listUses, Stmt.listLexemes]
    exact (Stmt.written s).append (Stmt.listWritten rest)

end

/-- Every use in a method of a program is written in its text, with all that belongs to it. -/
theorem Method.written {p : Program} {m : Method} (inside : m ∈ p.methods) :
    Written m.uses p.lexemes := by
  have body : Written m.uses m.lexemes :=
    (((Stmt.listWritten m.body).before [_]).before _).behind _
  obtain ⟨front, back, methods⟩ := append_of_mem inside
  have methods : Written m.uses (p.methods.flatMap Method.lexemes) := by
    rw [methods, flatMap_append, flatMap_cons]
    exact (body.behind _).before _
  exact ((methods.before [_]).before _).behind _

/-! ## Names of methods -/

def Parameters.names (ps : Parameters) : List String := ps.first.name :: ps.rest.map (·.name)

/-- The names of the parameters and variables of a method. -/
def Method.names (m : Method) : List String :=
  m.parameters.elim [] Parameters.names ++ m.locals.flatMap VarDecl.names

def Decl.names : Decl → List String
  | const _ name _ => [name]
  | vars d => d.names
  | classDecl name _ => [name]

/-- The methods that every program can call. They are compiled in place. -/
def predeclaredMethods : List String := ["chr", "ord", "len"]

namespace Program

/-- Whether a name in the body of a method means a method of the program, when those before it are
given: they and the method itself are visible, unless a parameter or variable has the name. -/
def meansOwn (before : List Method) (m : Method) (name : String) : Bool :=
  !m.names.contains name && (before ++ [m]).any (·.name == name)

/-- Whether a name in the body of a method means a method. What a program declares hides what is
predeclared. -/
def meansMethod (p : Program) (before : List Method) (m : Method) (name : String) : Bool :=
  meansOwn before m name ||
    (!m.names.contains name && !(p.decls.flatMap Decl.names).contains name &&
      predeclaredMethods.contains name)

/-- Whether a use in the body of a method of a program begins with the name of a method. -/
structure NamesMethod (p : Program) (before : List Method) (m : Method) (u : Use) : Prop where
  method : before ++ [m] <+: p.methods
  inside : u ∈ m.uses
  means : p.meansMethod before m u.name = true

end Program

end MicroJava.Syntax

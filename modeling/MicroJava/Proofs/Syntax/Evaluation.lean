import Mathlib.Logic.Function.Basic
import MicroJava.Proofs.Machine.Basic
import MicroJava.Proofs.Syntax.Tree

/-! # What programs with integers mean

The meaning of programs whose variables and constants are integers and whose only method is `main`,
read off the syntax tree: names have values, statements change them and print, `break` leaves the
innermost loop. Evaluation takes the number of rounds that each loop may make; a program that needs
more rounds than any number goes on for ever.
-/

namespace MicroJava.Syntax

/-! ## Names and values -/

/-- The names that a program declares. -/
structure Names where
  /-- The local variables of `main`, in order. They hide other names. -/
  locals : List String
  globals : List String
  constants : List (String × Int32)

/-- The values of all variables, and what was printed. -/
structure Store where
  locals : String → Int32
  globals : String → Int32
  output : List Char

/-- All variables are zero at first. -/
def Store.initial : Store := ⟨fun _ => 0, fun _ => 0, []⟩

def Store.print (σ : Store) (text : List Char) : Store := { σ with output := σ.output ++ text }

namespace Names

variable (names : Names)

/-- Whether a name is declared. -/
def declares (name : String) : Bool :=
  names.locals.contains name || names.globals.contains name || (names.constants.lookup name).isSome

/-- The constant that a name means. -/
def constant? (name : String) : Option Int32 :=
  if name ∈ names.locals then none else names.constants.lookup name

/-- The value of a name. -/
def value (σ : Store) (name : String) : Int32 :=
  if name ∈ names.locals then σ.locals name
  else (names.constants.lookup name).getD (σ.globals name)

/-- The values after an assignment. -/
def assign (σ : Store) (name : String) (value : Int32) : Store :=
  if name ∈ names.locals then { σ with locals := Function.update σ.locals name value }
  else { σ with globals := Function.update σ.globals name value }

end Names

/-! ## Expressions -/

def AddOp.apply : AddOp → Int32 → Int32 → Option Int32
  | plus, a, b => some (a + b)
  | minus, a, b => some (a - b)

/-- Division has no result if there is no quotient. -/
def MulOp.apply : MulOp → Int32 → Int32 → Option Int32
  | times, a, b => some (a * b)
  | slash, a, b => quotient? a b
  | percent, a, b => remainder? a b

def UpdateOp.apply : UpdateOp → Int32 → Int32 → Option Int32
  | add op => op.apply
  | mul op => op.apply

section

variable (names : Names)

mutual

/-- Whether an expression is made of integers and declared names only. -/
def Expr.isInt : Expr → Bool
  | .mk _ first rest => first.isInt && Term.chainIsInt rest

def Term.chainIsInt : List (AddOp × Term) → Bool
  | [] => true
  | (_, item) :: rest => item.isInt && Term.chainIsInt rest

def Term.isInt : Term → Bool
  | .mk first rest => first.isInt && Factor.chainIsInt rest

def Factor.chainIsInt : List (MulOp × Factor) → Bool
  | [] => true
  | (_, item) :: rest => item.isInt && Factor.chainIsInt rest

def Factor.isInt : Factor → Bool
  | .value (.mk name []) => names.declares name
  | .number _ => true
  | .paren e => e.isInt
  | _ => false

end

mutual

/-- The value of an expression, unless it divides where there is no quotient. -/
def Expr.eval (σ : Store) : Expr → Option Int32
  | .mk negated first rest => do
    let value ← first.eval σ
    Term.evalChain σ (if negated then -value else value) rest

def Term.evalChain (σ : Store) : Int32 → List (AddOp × Term) → Option Int32
  | value, [] => some value
  | value, (op, item) :: rest => do
    let other ← item.eval σ
    let value ← op.apply value other
    Term.evalChain σ value rest

def Term.eval (σ : Store) : Term → Option Int32
  | .mk first rest => do
    let value ← first.eval σ
    Factor.evalChain σ value rest

def Factor.evalChain (σ : Store) : Int32 → List (MulOp × Factor) → Option Int32
  | value, [] => some value
  | value, (op, item) :: rest => do
    let other ← item.eval σ
    let value ← op.apply value other
    Factor.evalChain σ value rest

def Factor.eval (σ : Store) : Factor → Option Int32
  | .value (.mk name _) => some (names.value σ name)
  | .number value => some value
  | .paren e => e.eval σ
  | _ => none

end

mutual

/-- The value of an expression that is a constant, perhaps with signs and parentheses. -/
def Expr.constant? : Expr → Option Int32
  | .mk negated first rest =>
    if rest.isEmpty then first.constant?.map fun value => if negated then -value else value
    else none

def Term.constant? : Term → Option Int32
  | .mk first rest => if rest.isEmpty then first.constant? else none

def Factor.constant? : Factor → Option Int32
  | .value (.mk name _) => names.constant? name
  | .number value => some value
  | .paren e => e.constant?
  | _ => none

end

/-! ## Conditions -/

def Compare.isInt (c : Compare) : Bool := c.left.isInt names && c.right.isInt names

def Disjunction.isInt (c : Disjunction) : Bool :=
  c.conjunctions.all fun conjunction => conjunction.compares.all (Compare.isInt names)

def Compare.eval (σ : Store) (c : Compare) : Option Bool := do
  let left ← c.left.eval names σ
  let right ← c.right.eval names σ
  return c.relation.holds left right

/-- Whether comparisons all hold. Those after one that does not are not evaluated. -/
def Compare.evalAll (σ : Store) : List Compare → Option Bool
  | [] => some true
  | c :: rest => do
    if ← c.eval names σ then Compare.evalAll σ rest else some false

/-- Whether one of some conjunctions holds. Those after one that does are not evaluated. -/
def Conjunction.evalAny (σ : Store) : List Conjunction → Option Bool
  | [] => some false
  | c :: rest => do
    if ← Compare.evalAll names σ c.compares then some true else Conjunction.evalAny σ rest

def Disjunction.eval (σ : Store) (c : Disjunction) : Option Bool :=
  Conjunction.evalAny names σ c.conjunctions

/-! ## Statements -/

/-- How a statement ends. -/
inductive Outcome where
  | normal (σ : Store)
  /-- By `break`. -/
  | leave (σ : Store)
  /-- By a division that has no quotient. -/
  | fault (σ : Store)
  /-- Not at all within the rounds that loops may make. -/
  | timeout (σ : Store)

/-- Goes on after a statement that ends normally. -/
def Outcome.andThen (o : Outcome) (next : Store → Outcome) : Outcome :=
  match o with
  | normal σ => next σ
  | other => other

/-- Goes on with a value, if there is one. -/
def Outcome.withValue {α : Type} (σ : Store) (value : Option α) (next : α → Outcome) : Outcome :=
  match value with
  | some a => next a
  | none => .fault σ

/-- Makes at most a number of rounds of a loop. -/
def iterate (condition : Store → Option Bool) (body : Store → Outcome) : Nat → Store → Outcome
  | 0, σ => .timeout σ
  | rounds + 1, σ =>
    .withValue σ (condition σ) fun holds =>
      if holds then
        match body σ with
        | .normal σ' => iterate condition body rounds σ'
        | .leave σ' => .normal σ'
        | other => other
      else .normal σ

/-- The width that a value is printed with. -/
def printWidth (e : Expr) (width : Option Int32) : Int32 :=
  match width, e.constant? names with
  | some width, _ => width
  | none, some value => Int32.ofNat (Nat.toDigits 10 value.toInt.natAbs).length
  | none, none => 1

mutual

/-- Whether a statement belongs to those whose meaning is given here. -/
def Stmt.isInt : Stmt → Bool
  | .assign (.mk name []) e => names.declares name && e.isInt names
  | .update (.mk name []) _ e => names.declares name && e.isInt names
  | .step (.mk name []) _ => names.declares name
  | .ifThen c body => c.isInt names && body.isInt
  | .ifElse c body other => c.isInt names && body.isInt && other.isInt
  | .loop c body => c.isInt names && body.isInt
  | .leave => true
  | .print e _ => e.isInt names
  | .block body => Stmt.listIsInt body
  | .empty => true
  | _ => false

def Stmt.listIsInt : List Stmt → Bool
  | [] => true
  | s :: rest => s.isInt && Stmt.listIsInt rest

end

mutual

/-- Runs a statement in which every loop makes at most `rounds` rounds. -/
def Stmt.exec (rounds : Nat) : Stmt → Store → Outcome
  | .assign (.mk name _) e, σ =>
    .withValue σ (e.eval names σ) fun value => .normal (names.assign σ name value)
  | .update (.mk name _) op e, σ =>
    .withValue σ ((e.eval names σ).bind (op.apply (names.value σ name))) fun value =>
      .normal (names.assign σ name value)
  | .step (.mk name _) up, σ =>
    .normal (names.assign σ name (names.value σ name + if up then 1 else -1))
  | .print e width, σ =>
    .withValue σ (e.eval names σ) fun value =>
      .normal (σ.print (rightAligned (printWidth names e width) (decimal value)))
  | .ifThen c body, σ =>
    .withValue σ (c.eval names σ) fun holds => if holds then body.exec rounds σ else .normal σ
  | .ifElse c body other, σ =>
    .withValue σ (c.eval names σ) fun holds =>
      if holds then body.exec rounds σ else other.exec rounds σ
  | .loop c body, σ => iterate (c.eval names) (body.exec rounds) rounds σ
  | .leave, σ => .leave σ
  | .block body, σ => Stmt.execAll rounds body σ
  | _, σ => .normal σ

def Stmt.execAll (rounds : Nat) : List Stmt → Store → Outcome
  | [], σ => .normal σ
  | s :: rest, σ => (s.exec rounds σ).andThen (Stmt.execAll rounds rest)

end

end

/-! ## Programs -/

def TypeName.isInt (t : TypeName) : Bool := t == ⟨"int", false⟩

def Decl.isInt : Decl → Bool
  | const type _ (.number _) => type.isInt
  | vars d => d.type.isInt
  | _ => false

/-- The variables that a declaration declares. -/
def Decl.varNames : Decl → List String
  | vars d => d.names
  | _ => []

/-- The constant that a declaration declares. -/
def Decl.constant? : Decl → Option (String × Int32)
  | const _ name (.number value) => some (name, value)
  | _ => none

def Program.names (p : Program) : Names where
  locals := p.methods.flatMap fun m => m.locals.flatMap VarDecl.names
  globals := p.decls.flatMap Decl.varNames
  constants := p.decls.filterMap Decl.constant?

/-- Whether a program has integer variables and constants only, and `main` as its only method. -/
def Program.isInt (p : Program) : Bool :=
  p.decls.all Decl.isInt &&
    match p.methods with
    | [m] => m.result.isNone && m.name == "main" && m.parameters.isNone &&
      m.locals.all (·.type.isInt) && Stmt.listIsInt p.names m.body
    | _ => false

/-- Runs a program in which every loop makes at most `rounds` rounds. -/
def Program.run (p : Program) (rounds : Nat) : Outcome :=
  Stmt.execAll p.names rounds (p.methods.flatMap Method.body) .initial

/-- How a program behaves. -/
def Program.Behaves (p : Program) : Behaviour → Prop
  | .finished globals output =>
    ∃ rounds σ, p.run rounds = .normal σ ∧ p.names.globals.map σ.globals = globals ∧
      σ.output = output
  | .faulted globals output =>
    ∃ rounds σ, p.run rounds = .fault σ ∧ p.names.globals.map σ.globals = globals ∧
      σ.output = output
  | .diverges shown =>
    (∀ rounds, ∃ σ, p.run rounds = .timeout σ) ∧
      shown = { text | ∃ rounds σ, p.run rounds = .timeout σ ∧ text <+: σ.output }

end MicroJava.Syntax

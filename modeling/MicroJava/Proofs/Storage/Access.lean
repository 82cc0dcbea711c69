import MicroJava.Proofs.Syntax.Evaluation
import MicroJava.Proofs.Syntax.Use

/-! # What a method body accesses

The places in a method body where the value of a designator is read or written and where objects are
created, in the order in which they are carried out. A selector reads what it selects from, so the
designators in front of the last selector are read, too.
-/

namespace MicroJava.Syntax

/-- What a method body does with a designator or with a class. -/
inductive Access where
  | read (d : Designator)
  | write (d : Designator)
  /-- `++` or `--` -/
  | step (d : Designator) (up : Bool)
  /-- `new ident` -/
  | create (type : String)

mutual

/-- What has to be accessed for the value of an expression. -/
def Expr.accesses : Expr → List Access
  | .mk _ first rest => first.accesses ++ Term.chainAccesses rest

def Term.chainAccesses : List (AddOp × Term) → List Access
  | [] => []
  | (_, item) :: rest => item.accesses ++ Term.chainAccesses rest

def Term.accesses : Term → List Access
  | .mk first rest => first.accesses ++ Factor.chainAccesses rest

def Factor.chainAccesses : List (MulOp × Factor) → List Access
  | [] => []
  | (_, item) :: rest => item.accesses ++ Factor.chainAccesses rest

def Factor.accesses : Factor → List Access
  | .value d => d.innerAccesses ++ [.read d]
  | .call d args => d.innerAccesses ++ args.accesses
  | .object type => [.create type]
  | .array _ size => size.accesses
  | .paren e => e.accesses
  | .number _ | .character _ => []

/-- What the selectors of a designator access. -/
def Designator.innerAccesses : Designator → List Access
  | .mk name selectors => Selector.listAccesses name [] selectors

/-- What selectors behind a name and those that are done access. -/
def Selector.listAccesses (name : String) : (done : List Selector) → List Selector → List Access
  | _, [] => []
  | done, selector :: rest =>
    .read (.mk name done) :: selector.accesses ++
      Selector.listAccesses name (done ++ [selector]) rest

def Selector.accesses : Selector → List Access
  | .field _ => []
  | .index e => e.accesses

def Arguments.accesses : Arguments → List Access
  | .mk fixed extra =>
    Expr.listAccesses fixed ++
      match extra with
      | none => []
      | some values => values.accesses

def VarArguments.accesses : VarArguments → List Access
  | .mk _ values => Expr.listAccesses values

def Expr.listAccesses : List Expr → List Access
  | [] => []
  | e :: rest => e.accesses ++ Expr.listAccesses rest

end

def Compare.accesses (c : Compare) : List Access := c.left.accesses ++ c.right.accesses

def Conjunction.accesses (c : Conjunction) : List Access := c.compares.flatMap Compare.accesses

def Disjunction.accesses (c : Disjunction) : List Access :=
  c.conjunctions.flatMap Conjunction.accesses

mutual

/-- What a statement accesses. -/
def Stmt.accesses : Stmt → List Access
  | .assign d e => d.innerAccesses ++ e.accesses ++ [.write d]
  | .update d _ e => d.innerAccesses ++ [.read d] ++ e.accesses ++ [.write d]
  | .step d up => d.innerAccesses ++ [.step d up]
  | .read d => d.innerAccesses ++ [.write d]
  | .call d args => d.innerAccesses ++ args.accesses
  | .ifThen c body | .loop c body => c.accesses ++ body.accesses
  | .ifElse c body other => c.accesses ++ body.accesses ++ other.accesses
  | .yield e => e.elim [] Expr.accesses
  | .print e _ => e.accesses
  | .block body => Stmt.listAccesses body
  | .leave | .empty => []

def Stmt.listAccesses : List Stmt → List Access
  | [] => []
  | s :: rest => s.accesses ++ Stmt.listAccesses rest

end

/-- What the body of a method accesses. -/
def Method.accesses (m : Method) : List Access := Stmt.listAccesses m.body

theorem Factor.chainAccesses_eq (rest : List (MulOp × Factor)) :
    Factor.chainAccesses rest = rest.flatMap fun pair => pair.2.accesses := by
  induction rest with
  | nil => rw [Factor.chainAccesses]; rfl
  | cons pair rest ih => rw [Factor.chainAccesses, ih]; rfl

theorem Term.chainAccesses_eq (rest : List (AddOp × Term)) :
    Term.chainAccesses rest = rest.flatMap fun pair => pair.2.accesses := by
  induction rest with
  | nil => rw [Term.chainAccesses]; rfl
  | cons pair rest ih => rw [Term.chainAccesses, ih]; rfl

/-! ## Variables of a program -/

/-- The global variables of a program, in the order of their declaration. -/
def Program.varNames (p : Program) : List String := p.decls.flatMap Decl.varNames

/-- The number of parameters of a method. -/
def Method.parameterCount (m : Method) : Nat := (m.parameters.elim [] Parameters.names).length

end MicroJava.Syntax

import MicroJava.Token.Basic
import MicroJava.Code.Opcode

/-! # Syntax trees

The grammar as data: one type for each phrase, and the lexemes that a phrase is written with. The
compiler builds no tree, but what it does to a text without problems is what it does to its tree.
-/

namespace MicroJava.Syntax

/-! ## Operators -/

/-- An adding operator. -/
inductive AddOp where
  | plus | minus
deriving DecidableEq, Repr

/-- A multiplying operator. -/
inductive MulOp where
  | times | slash | percent
deriving DecidableEq, Repr

/-- An operator that changes a variable by the value of an expression. -/
inductive UpdateOp where
  | add (op : AddOp)
  | mul (op : MulOp)
deriving DecidableEq, Repr

def AddOp.mark : AddOp → Mark
  | plus => .plus
  | minus => .minus

def MulOp.mark : MulOp → Mark
  | times => .times
  | slash => .slash
  | percent => .percent

def UpdateOp.mark : UpdateOp → Mark
  | add .plus => .plusAssign
  | add .minus => .minusAssign
  | mul .times => .timesAssign
  | mul .slash => .slashAssign
  | mul .percent => .percentAssign

/-- The mark of a relation between values. -/
def relationMark : Comparison → Mark
  | .eq => .equal
  | .ne => .notEqual
  | .lt => .less
  | .le => .lessEqual
  | .gt => .greater
  | .ge => .greaterEqual

/-! ## Expressions -/

mutual

/-- `[-] Term {Addop Term}` -/
inductive Expr where
  | mk (negated : Bool) (first : Term) (rest : List (AddOp × Term))

/-- `Factor {Mulop Factor}` -/
inductive Term where
  | mk (first : Factor) (rest : List (MulOp × Factor))

inductive Factor where
  | value (d : Designator)
  | call (d : Designator) (args : Arguments)
  | number (value : Int32)
  | character (value : Int32)
  /-- `new ident` -/
  | object (type : String)
  /-- `new ident [ Expr ]` -/
  | array (type : String) (size : Expr)
  | paren (e : Expr)

/-- `ident {. ident | [ Expr ]}` -/
inductive Designator where
  | mk (name : String) (selectors : List Selector)

inductive Selector where
  | field (name : String)
  | index (e : Expr)

/-- `( [Expr {, Expr}] [# number [Expr {, Expr}]] )` -/
inductive Arguments where
  | mk (fixed : List Expr) (extra : Option VarArguments)

inductive VarArguments where
  | mk (size : Int32) (values : List Expr)

end

mutual

def Expr.lexemes : Expr → List Lexeme
  | .mk negated first rest =>
    (if negated then [.mark .minus] else []) ++ first.lexemes ++ Term.chainLexemes rest

def Term.chainLexemes : List (AddOp × Term) → List Lexeme
  | [] => []
  | (op, item) :: rest => .mark op.mark :: item.lexemes ++ Term.chainLexemes rest

def Term.lexemes : Term → List Lexeme
  | .mk first rest => first.lexemes ++ Factor.chainLexemes rest

def Factor.chainLexemes : List (MulOp × Factor) → List Lexeme
  | [] => []
  | (op, item) :: rest => .mark op.mark :: item.lexemes ++ Factor.chainLexemes rest

def Factor.lexemes : Factor → List Lexeme
  | .value d => d.lexemes
  | .call d args => d.lexemes ++ args.lexemes
  | .number value => [.number value]
  | .character value => [.charConst value]
  | .object type => [.keyword .newKw, .ident type]
  | .array type size =>
    [.keyword .newKw, .ident type, .mark .leftBracket] ++ size.lexemes ++ [.mark .rightBracket]
  | .paren e => .mark .leftParen :: e.lexemes ++ [.mark .rightParen]

def Designator.lexemes : Designator → List Lexeme
  | .mk name selectors => .ident name :: Selector.listLexemes selectors

def Selector.listLexemes : List Selector → List Lexeme
  | [] => []
  | selector :: rest => selector.lexemes ++ Selector.listLexemes rest

def Selector.lexemes : Selector → List Lexeme
  | .field name => [.mark .period, .ident name]
  | .index e => .mark .leftBracket :: e.lexemes ++ [.mark .rightBracket]

def Arguments.lexemes : Arguments → List Lexeme
  | .mk fixed extra =>
    .mark .leftParen :: Expr.listLexemes fixed ++
      (match extra with
        | none => []
        | some values => values.lexemes) ++ [.mark .rightParen]

def VarArguments.lexemes : VarArguments → List Lexeme
  | .mk size values => [.mark .hash, .number size] ++ Expr.listLexemes values

/-- `[Expr {, Expr}]` -/
def Expr.listLexemes : List Expr → List Lexeme
  | [] => []
  | e :: rest => e.lexemes ++ Expr.tailLexemes rest

/-- `{, Expr}` -/
def Expr.tailLexemes : List Expr → List Lexeme
  | [] => []
  | e :: rest => .mark .comma :: e.lexemes ++ Expr.tailLexemes rest

end

/-! ## Conditions -/

/-- `Expr Relop Expr` -/
structure Compare where
  left : Expr
  relation : Comparison
  right : Expr

/-- `Compare {&& Compare}` -/
structure Conjunction where
  first : Compare
  rest : List Compare

/-- `Conjunction {|| Conjunction}` -/
structure Disjunction where
  first : Conjunction
  rest : List Conjunction

def Compare.lexemes (c : Compare) : List Lexeme :=
  c.left.lexemes ++ .mark (relationMark c.relation) :: c.right.lexemes

/-- Every comparison of a conjunction, in order. -/
def Conjunction.compares (c : Conjunction) : List Compare := c.first :: c.rest

/-- Every conjunction of a disjunction, in order. -/
def Disjunction.conjunctions (c : Disjunction) : List Conjunction := c.first :: c.rest

def Conjunction.lexemes (c : Conjunction) : List Lexeme :=
  c.first.lexemes ++ c.rest.flatMap fun other => .mark .andAnd :: other.lexemes

def Disjunction.lexemes (c : Disjunction) : List Lexeme :=
  c.first.lexemes ++ c.rest.flatMap fun other => .mark .orOr :: other.lexemes

/-! ## Statements -/

inductive Stmt where
  | assign (d : Designator) (e : Expr)
  | update (d : Designator) (op : UpdateOp) (e : Expr)
  /-- `++` or `--` -/
  | step (d : Designator) (up : Bool)
  | call (d : Designator) (args : Arguments)
  | ifThen (condition : Disjunction) (body : Stmt)
  | ifElse (condition : Disjunction) (body other : Stmt)
  | loop (condition : Disjunction) (body : Stmt)
  /-- `break ;` -/
  | leave
  /-- `return [Expr] ;` -/
  | yield (e : Option Expr)
  | read (d : Designator)
  | print (e : Expr) (width : Option Int32)
  | block (body : List Stmt)
  /-- `;` -/
  | empty

mutual

def Stmt.lexemes : Stmt → List Lexeme
  | .assign d e => d.lexemes ++ .mark .assign :: e.lexemes ++ [.mark .semicolon]
  | .update d op e => d.lexemes ++ .mark op.mark :: e.lexemes ++ [.mark .semicolon]
  | .step d up =>
    d.lexemes ++ [.mark (if up then .plusPlus else .minusMinus), .mark .semicolon]
  | .call d args => d.lexemes ++ args.lexemes ++ [.mark .semicolon]
  | .ifThen c body =>
    [.keyword .ifKw, .mark .leftParen] ++ c.lexemes ++ .mark .rightParen :: body.lexemes
  | .ifElse c body other =>
    [.keyword .ifKw, .mark .leftParen] ++ c.lexemes ++ .mark .rightParen :: body.lexemes ++
      .keyword .elseKw :: other.lexemes
  | .loop c body =>
    [.keyword .whileKw, .mark .leftParen] ++ c.lexemes ++ .mark .rightParen :: body.lexemes
  | .leave => [.keyword .breakKw, .mark .semicolon]
  | .yield e => .keyword .returnKw :: (e.elim [] Expr.lexemes) ++ [.mark .semicolon]
  | .read d =>
    [.keyword .readKw, .mark .leftParen] ++ d.lexemes ++ [.mark .rightParen, .mark .semicolon]
  | .print e width =>
    [.keyword .printKw, .mark .leftParen] ++ e.lexemes ++
      width.elim [] (fun value => [.mark .comma, .number value]) ++
      [.mark .rightParen, .mark .semicolon]
  | .block body => .mark .leftBrace :: Stmt.listLexemes body ++ [.mark .rightBrace]
  | .empty => [.mark .semicolon]

def Stmt.listLexemes : List Stmt → List Lexeme
  | [] => []
  | s :: rest => s.lexemes ++ Stmt.listLexemes rest

end

/-- Whether an `else` after a statement would belong to an `if` in it. -/
def Stmt.endsOpen : Stmt → Bool
  | .ifThen _ _ => true
  | .ifElse _ _ other => other.endsOpen
  | .loop _ body => body.endsOpen
  | _ => false

mutual

/-- Whether every `else` of a statement belongs to the nearest `if` before it. -/
def Stmt.proper : Stmt → Bool
  | .ifThen _ body => body.proper
  | .ifElse _ body other => body.proper && !body.endsOpen && other.proper
  | .loop _ body => body.proper
  | .block body => Stmt.listProper body
  | _ => true

def Stmt.listProper : List Stmt → Bool
  | [] => true
  | s :: rest => s.proper && Stmt.listProper rest

end

/-! ## Declarations -/

/-- `ident [[ ]]` -/
structure TypeName where
  name : String
  isArray : Bool
deriving DecidableEq, Repr

/-- `Type ident {, ident} ;` -/
structure VarDecl where
  type : TypeName
  first : String
  rest : List String
deriving DecidableEq, Repr

inductive Literal where
  | number (value : Int32)
  | character (value : Int32)
deriving DecidableEq, Repr

inductive Decl where
  /-- `final Type ident = (number | charConst) ;` -/
  | const (type : TypeName) (name : String) (literal : Literal)
  | vars (d : VarDecl)
  /-- `class ident { {VarDecl} }` -/
  | classDecl (name : String) (fields : List VarDecl)
deriving DecidableEq, Repr

structure Parameter where
  type : TypeName
  name : String
deriving DecidableEq, Repr

/-- `Type ident {, Type ident} [...]` -/
structure Parameters where
  first : Parameter
  rest : List Parameter
  /-- Whether dots follow the last parameter. -/
  variadic : Bool
deriving DecidableEq, Repr

/-- `(Type | void) ident ( [FormPars] ) {VarDecl} Block` -/
structure Method where
  result : Option TypeName
  name : String
  parameters : Option Parameters
  locals : List VarDecl
  body : List Stmt

/-- `program ident {ConstDecl | VarDecl | ClassDecl} { {MethodDecl} }` -/
structure Program where
  name : String
  decls : List Decl
  methods : List Method

def TypeName.lexemes (t : TypeName) : List Lexeme :=
  .ident t.name :: if t.isArray then [.mark .leftBracket, .mark .rightBracket] else []

/-- Every name of a declaration, in order. -/
def VarDecl.names (d : VarDecl) : List String := d.first :: d.rest

def VarDecl.lexemes (d : VarDecl) : List Lexeme :=
  d.type.lexemes ++ .ident d.first ::
    (d.rest.flatMap fun name => [.mark .comma, .ident name]) ++ [.mark .semicolon]

def Literal.lexeme : Literal → Lexeme
  | number value => .number value
  | character value => .charConst value

def Decl.lexemes : Decl → List Lexeme
  | const type name literal =>
    .keyword .finalKw :: type.lexemes ++
      [.ident name, .mark .assign, literal.lexeme, .mark .semicolon]
  | vars d => d.lexemes
  | classDecl name fields =>
    [.keyword .classKw, .ident name, .mark .leftBrace] ++ fields.flatMap VarDecl.lexemes ++
      [.mark .rightBrace]

def Parameter.lexemes (p : Parameter) : List Lexeme := p.type.lexemes ++ [.ident p.name]

def Parameters.lexemes (p : Parameters) : List Lexeme :=
  p.first.lexemes ++ (p.rest.flatMap fun other => .mark .comma :: other.lexemes) ++
    if p.variadic then [.mark .ellipsis] else []

def Method.lexemes (m : Method) : List Lexeme :=
  m.result.elim [.keyword .voidKw] TypeName.lexemes ++ [.ident m.name, .mark .leftParen] ++
    m.parameters.elim [] Parameters.lexemes ++ .mark .rightParen ::
    m.locals.flatMap VarDecl.lexemes ++ .mark .leftBrace :: Stmt.listLexemes m.body ++
    [.mark .rightBrace]

def Program.lexemes (p : Program) : List Lexeme :=
  [.keyword .programKw, .ident p.name] ++ p.decls.flatMap Decl.lexemes ++ .mark .leftBrace ::
    p.methods.flatMap Method.lexemes ++ [.mark .rightBrace]

/-- Whether every `else` of a program belongs to the nearest `if` before it. -/
def Program.proper (p : Program) : Bool := p.methods.all fun m => Stmt.listProper m.body

/-- Whether a source text is written as a program, and which one. -/
def Program.IsTreeOf (p : Program) (source : List Char) : Prop :=
  (Token.all source).map Token.lexeme = p.lexemes ++ [.eof] ∧ p.proper = true
deriving Decidable

end MicroJava.Syntax

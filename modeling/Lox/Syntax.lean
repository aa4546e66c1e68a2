import Lox.Token

/-! Syntax trees. Tokens are kept where a later diagnostic may point at them. -/
namespace Lox

/-- The identity of an expression that names a variable. -/
structure ExprId where
  index : UInt32
deriving DecidableEq

namespace ExprId

/-- The identity that is given out when `n` have been given out before. Identities are counted in 32
bits, so the one behind the last is the first. -/
def numbered (n : Nat) : ExprId := ⟨UInt32.ofNat n⟩

end ExprId

/-- A supply of identities, by the number of those it has given out. -/
structure ExprIds where
  allocated : Nat

inductive Literal
  | number (value : Float)
  | string (text : String)
  | boolean (value : Bool)
  | nil
deriving DecidableEq

inductive Expr
  | literal (value : Literal)
  | grouping (inner : Expr)
  | unary (operator : Token) (right : Expr)
  | binary (left : Expr) (operator : Token) (right : Expr)
  | logical (left : Expr) (operator : Token) (right : Expr)
  | ternary (condition ifTrue ifFalse : Expr)
  | variable (id : ExprId) (name : Token)
  | assign (id : ExprId) (name : Token) (value : Expr)
  | call (callee : Expr) (paren : Token) (arguments : List Expr)
  | get (object : Expr) (name : Token)
  | set (object : Expr) (name : Token) (value : Expr)
  | this (id : ExprId) (keyword : Token)
  | super (id : ExprId) (keyword method : Token)

instance : Inhabited Expr := ⟨.literal .nil⟩

/-- A function or method whose body is made of statements of the type `σ`. -/
structure Declaration (σ : Type) where
  name : Token
  parameters : List Token
  body : List σ

inductive Stmt
  | expression (e : Expr)
  | print (e : Expr)
  | var (name : Token) (initializer : Option Expr)
  | block (body : List Stmt)
  | branch (condition : Expr) (thenBranch : Stmt) (elseBranch : Option Stmt)
  | loop (condition : Expr) (body : Stmt)
  | function (declaration : Declaration Stmt)
  | return (keyword : Token) (value : Option Expr)
  | class (name : Token) (superclass : Option Expr) (methods : List (Declaration Stmt))

abbrev FunctionDecl := Declaration Stmt

instance : Inhabited Stmt := ⟨.block []⟩

instance : Inhabited FunctionDecl := ⟨⟨.eof 1,[],[]⟩⟩

end Lox

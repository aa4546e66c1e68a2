import Lox.Syntax

/-! Where a variable occurrence stands: the constructs around it that open a scope, and the variable
whose initial value it belongs to. -/
namespace Lox

/-- A construct that opens a scope of its own when it is executed. Each method has a scope for `this`
around that of its calls, and the methods of a subclass have one for `super` around that. -/
inductive Site
  | block (body : List Stmt)
  | call (declaration : FunctionDecl)
  | receiver (method : FunctionDecl)
  | superclass (name : Token) (methods : List FunctionDecl)

/-- The name that a statement adds to the scope it stands in. -/
def Stmt.declared? : Stmt → Option String
  | .var name _ | .class name _ _ => some name.lexeme
  | .function d => some d.name.lexeme
  | _ => none

/-- The names that belong to the scope of a construct. -/
def Site.Declares : Site → String → Prop
  | .block body, name => ∃ s ∈ body, s.declared? = some name
  | .call d, name => (∃ p ∈ d.parameters, p.lexeme = name) ∨ ∃ s ∈ d.body, s.declared? = some name
  | .receiver _, name => name = "this"
  | .superclass _ _, name => name = "super"

/-- The innermost class around a point is this subclass. So many functions and blocks have to be left to come to
the receiver of one of its methods, and the scope for `super` lies just around that. -/
inductive InSubclass (name : Token) (methods : List FunctionDecl) : List Site → Nat → Prop
  | method {d sites} (hd : d ∈ methods) :
    InSubclass name methods (.receiver d :: .superclass name methods :: sites) 0
  | block {body sites n} (h : InSubclass name methods sites n) :
    InSubclass name methods (.block body :: sites) (n + 1)
  | call {d sites n} (h : InSubclass name methods sites n) : InSubclass name methods (.call d :: sites) (n + 1)

/-- The constructs around an occurrence, innermost first, and the name of the variable, if any, that is
being given its initial value there. -/
structure Place where
  sites : List Site
  initializing : Option String

mutual

/-- The occurrences in an expression, in the order in which scoping meets them. -/
def Expr.occurrences (here : Place) : Expr → List (ExprId × Place)
  | .literal _ => []
  | .grouping inner => inner.occurrences here
  | .unary _ right => right.occurrences here
  | .binary left _ right | .logical left _ right => left.occurrences here ++ right.occurrences here
  | .ternary condition ifTrue ifFalse =>
    condition.occurrences here ++ (ifTrue.occurrences here ++ ifFalse.occurrences here)
  | .variable id _ | .this id _ | .super id _ _ => [(id,here)]
  | .assign id _ value => value.occurrences here ++ [(id,here)]
  | .call callee _ arguments => callee.occurrences here ++ Expr.listOccurrences here arguments
  | .get object _ => object.occurrences here
  | .set object _ value => value.occurrences here ++ object.occurrences here

def Expr.listOccurrences (here : Place) : List Expr → List (ExprId × Place)
  | [] => []
  | e :: es => e.occurrences here ++ Expr.listOccurrences here es

end

def Expr.optionOccurrences (here : Place) : Option Expr → List (ExprId × Place)
  | none => []
  | some e => e.occurrences here

namespace Stmt

mutual

/-- The occurrences in a statement that stands within the given constructs. -/
def occurrences (sites : List Site) : Stmt → List (ExprId × Place)
  | .expression e | .print e => e.occurrences ⟨sites,none⟩
  | .var name initializer => Expr.optionOccurrences ⟨sites,some name.lexeme⟩ initializer
  | .block body => listOccurrences (.block body :: sites) body
  | .branch condition thenBranch elseBranch =>
    condition.occurrences ⟨sites,none⟩ ++
      (thenBranch.occurrences sites ++ optionOccurrences sites elseBranch)
  | .loop condition body => condition.occurrences ⟨sites,none⟩ ++ body.occurrences sites
  | .function d => functionOccurrences sites d
  | .return _ value => Expr.optionOccurrences ⟨sites,none⟩ value
  | .class name superclass methods =>
    let around := match superclass with
      | none => sites
      | some _ => .superclass name methods :: sites
    Expr.optionOccurrences ⟨sites,none⟩ superclass ++ methodOccurrences around methods

def optionOccurrences (sites : List Site) : Option Stmt → List (ExprId × Place)
  | none => []
  | some s => s.occurrences sites

def listOccurrences (sites : List Site) : List Stmt → List (ExprId × Place)
  | [] => []
  | s :: ss => s.occurrences sites ++ listOccurrences sites ss

def functionOccurrences (sites : List Site) : FunctionDecl → List (ExprId × Place)
  | ⟨name,parameters,body⟩ => listOccurrences (.call ⟨name,parameters,body⟩ :: sites) body

def methodOccurrences (sites : List Site) : List FunctionDecl → List (ExprId × Place)
  | [] => []
  | d :: ds => functionOccurrences (.receiver d :: sites) d ++ methodOccurrences sites ds

end

theorem functionOccurrences_eq (sites : List Site) (d : FunctionDecl) :
    functionOccurrences sites d = listOccurrences (.call d :: sites) d.body := by
  cases d
  rfl

end Stmt
end Lox

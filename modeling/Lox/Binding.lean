import Lox.Bindings
import Lox.Syntax
import Lox.Log

/-! Static scoping: which declaration each variable occurrence refers to, as a number of scopes to
leave, and which rules of scoping a program breaks. Global names are left open. -/
namespace Lox

/-- The innermost function around a point of a program. -/
inductive FunctionContext
  | none
  | function
  | method
  | initializer
deriving DecidableEq

/-- The innermost class around a point of a program. -/
inductive ClassContext
  | none
  | plain
  | subclass
deriving DecidableEq

structure Surroundings where
  inFunction : FunctionContext
  inClass : ClassContext

/-- What scoping has to say about one occurrence, in the order of the program. -/
inductive Finding
  | occurrence (id : ExprId) (name : String) (depth : Option Nat)
  | fault (e : Error)
  | classDone (name : String)

/-- The local scopes around a point, innermost first, where each name is marked once its initializer
has been passed; and the findings so far, newest first. -/
structure Scoping where
  scopes : List (Bindings Bool)
  findings : List Finding

namespace Scoping

def find (s : Scoping) (f : Finding) : Scoping := { s with findings := f :: s.findings }

def fail (s : Scoping) (fault : StaticFault) (found : Token) : Scoping :=
  s.find (.fault (.static fault found))

def enter (s : Scoping) : Scoping := { s with scopes := ∅ :: s.scopes }

def leave (s : Scoping) : Scoping := { s with scopes := s.scopes.tail }

/-- Mark a name in the innermost scope. There is none at top level. -/
def mark (s : Scoping) (name : String) (defined : Bool) : Scoping :=
  match s.scopes with
  | [] => s
  | scope :: scopes => { s with scopes := scope.insert name defined :: scopes }

/-- Enter a name whose initializer is still ahead. Only local names must be new. -/
def declare (s : Scoping) (name : Token) : Scoping :=
  match s.scopes with
  | [] => s
  | scope :: _ =>
    let declared := s.mark name.lexeme false
    if scope.contains name.lexeme then declared.fail .redeclared name else declared

def define (s : Scoping) (name : Token) : Scoping := s.mark name.lexeme true

/-- How many scopes lie between a point and the nearest one that has the name. -/
def depth? (scopes : List (Bindings Bool)) (name : String) : Option Nat :=
  scopes.findIdx? (·.contains name)

def refer (s : Scoping) (id : ExprId) (name : Token) : Scoping :=
  s.find (.occurrence id name.lexeme (depth? s.scopes name.lexeme))

/-- Whether the innermost scope has the name and its initializer is not finished. -/
def inOwnInitializer (s : Scoping) (name : String) : Bool :=
  match s.scopes with
  | [] => false
  | scope :: _ => scope.find? name == some false

mutual

def expr (around : Surroundings) : Expr → Scoping → Scoping
  | .literal _, s => s
  | .grouping inner, s => expr around inner s
  | .unary _ right, s => expr around right s
  | .binary left _ right, s | .logical left _ right, s =>
    expr around right (expr around left s)
  | .ternary condition ifTrue ifFalse, s =>
    expr around ifFalse (expr around ifTrue (expr around condition s))
  | .variable id name, s =>
    let s := if s.inOwnInitializer name.lexeme then s.fail .ownInitializer name else s
    s.refer id name
  | .assign id name value, s => (expr around value s).refer id name
  | .call callee _ arguments, s => exprs around arguments (expr around callee s)
  | .get object _, s => expr around object s
  | .set object _ value, s => expr around object (expr around value s)
  | .this id keyword, s =>
    match around.inClass with
    | .none => s.fail .thisOutsideClass keyword
    | .plain | .subclass => s.refer id keyword
  | .super id keyword _, s =>
    match around.inClass with
    | .none => s.fail .superOutsideClass keyword
    | .plain => s.fail .superWithoutSuperclass keyword
    | .subclass => s.refer id keyword

def exprs (around : Surroundings) : List Expr → Scoping → Scoping
  | [], s => s
  | e :: es, s => exprs around es (expr around e s)

end

/-- A class may not name itself as its superclass. -/
def checkSuperclass (name : Token) (superclass : Expr) (s : Scoping) : Scoping :=
  match superclass with
  | .variable _ parent =>
    if parent.lexeme = name.lexeme then s.fail .inheritsItself parent else s
  | _ => s

def optional (around : Surroundings) (e : Option Expr) (s : Scoping) : Scoping :=
  match e with
  | none => s
  | some e => expr around e s

mutual

def stmt (around : Surroundings) : Stmt → Scoping → Scoping
  | .expression e, s | .print e, s => expr around e s
  | .var name initializer, s => (optional around initializer (s.declare name)).define name
  | .block body, s => (stmts around body s.enter).leave
  | .branch condition thenBranch elseBranch, s =>
    stmt? around elseBranch (stmt around thenBranch (expr around condition s))
  | .loop condition body, s => stmt around body (expr around condition s)
  | .function declaration, s =>
    function around .function declaration
      ((s.declare declaration.name).define declaration.name)
  | .return keyword value, s =>
    let s := if around.inFunction = .none then s.fail .returnOutsideFunction keyword else s
    match value with
    | none => s
    | some e =>
      let s := if around.inFunction = .initializer then s.fail .returnFromInitializer keyword else s
      expr around e s
  | .class name superclass methods, s =>
    let s := (s.declare name).define name
    match superclass with
    | none =>
      let s := functions { around with inClass := .plain } methods (s.enter.mark "this" true)
      s.leave.find (.classDone name.lexeme)
    | some parent =>
      let inside := { around with inClass := .subclass }
      let s := expr inside parent (checkSuperclass name parent s)
      let s := functions inside methods ((s.enter.mark "super" true).enter.mark "this" true)
      s.leave.leave.find (.classDone name.lexeme)

def stmt? (around : Surroundings) : Option Stmt → Scoping → Scoping
  | none, s => s
  | some b, s => stmt around b s

def stmts (around : Surroundings) : List Stmt → Scoping → Scoping
  | [], s => s
  | b :: bs, s => stmts around bs (stmt around b s)

/-- Parameters and body of a function share one scope. -/
def function (around : Surroundings) (context : FunctionContext) :
    Declaration Stmt → Scoping → Scoping
  | ⟨_,parameters,body⟩, s =>
    let s := parameters.foldl (fun s p => (s.declare p).define p) s.enter
    (stmts { around with inFunction := context } body s).leave

def functions (around : Surroundings) : List (Declaration Stmt) → Scoping → Scoping
  | [], s => s
  | d :: ds, s =>
    let context := if d.name.lexeme = "init" then .initializer else .method
    functions around ds (function around context d s)

end
end Scoping

/-- The outcome of scoping a program. -/
structure Resolution where
  statements : Nat
  findings : List Finding

def resolve (program : List Stmt) : Resolution :=
  let s := Scoping.stmts ⟨.none,.none⟩ program ⟨[],[]⟩
  ⟨program.length,s.findings.reverse⟩

namespace Finding

def occurrence? : Finding → Option (ExprId × String × Option Nat)
  | occurrence id name depth => some (id,name,depth)
  | _ => none

def fault? : Finding → Option Error
  | fault e => some e
  | _ => none

def event : Finding → Event
  | occurrence _ name (some depth) => .localResolved name depth
  | occurrence _ name none => .globalResolved name
  | fault e => .errorCreated e
  | classDone name => .classResolved name

end Finding

namespace Resolution

def errors (r : Resolution) : List Error := r.findings.filterMap Finding.fault?

/-- Each occurrence of a variable, with the number of scopes to leave unless it is global. -/
def occurrences (r : Resolution) : List (ExprId × String × Option Nat) :=
  r.findings.filterMap Finding.occurrence?

def events (r : Resolution) : List Event :=
  .resolving r.statements :: r.findings.map Finding.event ++ [.resolved r.errors.length]

end Resolution
end Lox

import Lox.Error
import Lox.Proofs.Scoping.Place

/-! The rules of scoping, apart from the pass that checks them. Each rule looks at one point of a program
and at the constructs around it. -/
namespace Lox

/-- A construct around a point of a program, with what it has declared in front of that point. -/
inductive Enclosure
  | initializer (name : Token)
  | block (before : List Stmt)
  | function (parameters : List Token) (before : List Stmt)
  | method (name : Token) (parameters : List Token) (before : List Stmt)
  | class (superclass : Option Expr)

namespace Enclosure

/-- The names that are already declared in the scope of the construct. Parameters and body of a function
are one scope. -/
def declared : Enclosure → List String
  | block before => before.filterMap Stmt.declared?
  | function parameters before | method _ parameters before =>
    parameters.map Token.lexeme ++ before.filterMap Stmt.declared?
  | initializer _ | «class» _ => []

def isFunction : Enclosure → Bool
  | function .. | method .. => true
  | _ => false

def class? : Enclosure → Option (Option Expr)
  | «class» superclass => some superclass
  | _ => none

end Enclosure

/-- The superclass clause of the innermost class, if there is a class. -/
def innermostClass? (around : List Enclosure) : Option (Option Expr) :=
  around.findSome? Enclosure.class?

def innermostFunction? (around : List Enclosure) : Option Enclosure :=
  around.find? Enclosure.isFunction

/-- What may break a rule. -/
inductive Act
  | declare (name : Token)
  | read (name : Token)
  | return (keyword : Token) (value : Option Expr)
  | this (keyword : Token)
  | super (keyword : Token)
  | inherit (name parent : Token)

/-- The rule that is broken, if any, and the token to be blamed. The constructs around are given innermost
first; at top level, where names may be declared again, there are none. -/
def Act.fault? (around : List Enclosure) : Act → Option (StaticFault × Token)
  | declare name => match around with
    | scope :: _ => if name.lexeme ∈ scope.declared then some (.redeclared,name) else none
    | [] => none
  | read name => match around with
    | .initializer other :: _ :: _ =>
      if name.lexeme = other.lexeme then some (.ownInitializer,name) else none
    | _ => none
  | .return keyword value => match innermostFunction? around with
    | none => some (.returnOutsideFunction,keyword)
    | some (.method name _ _) =>
      if name.lexeme = "init" ∧ value.isSome then some (.returnFromInitializer,keyword) else none
    | some _ => none
  | this keyword => match innermostClass? around with
    | none => some (.thisOutsideClass,keyword)
    | some _ => none
  | super keyword => match innermostClass? around with
    | none => some (.superOutsideClass,keyword)
    | some none => some (.superWithoutSuperclass,keyword)
    | some (some _) => none
  | inherit name parent =>
    if parent.lexeme = name.lexeme then some (.inheritsItself,parent) else none

structure Point where
  around : List Enclosure
  act : Act

/-- The error that is due at a point, if a rule is broken there. -/
def Point.violation? (p : Point) : Option Error :=
  (p.act.fault? p.around).map fun (fault,found) => .static fault found

mutual

/-- The points of an expression, in the order in which they are checked. -/
def Expr.points (around : List Enclosure) : Expr → List Point
  | .literal _ => []
  | .grouping inner => inner.points around
  | .unary _ right => right.points around
  | .binary left _ right | .logical left _ right => left.points around ++ right.points around
  | .ternary condition ifTrue ifFalse =>
    condition.points around ++ (ifTrue.points around ++ ifFalse.points around)
  | .variable _ name => [⟨around,.read name⟩]
  | .assign _ _ value => value.points around
  | .call callee _ arguments => callee.points around ++ Expr.listPoints around arguments
  | .get object _ => object.points around
  | .set object _ value => value.points around ++ object.points around
  | .this _ keyword => [⟨around,.this keyword⟩]
  | .super _ keyword _ => [⟨around,.super keyword⟩]

def Expr.listPoints (around : List Enclosure) : List Expr → List Point
  | [] => []
  | e :: es => e.points around ++ Expr.listPoints around es

end

def Expr.optionPoints (around : List Enclosure) : Option Expr → List Point
  | none => []
  | some e => e.points around

/-- A class with a superclass clause names its superclass. -/
def inheritancePoints (around : List Enclosure) (name : Token) : Option Expr → List Point
  | some (.variable _ parent) => [⟨around,.inherit name parent⟩]
  | _ => []

/-- Each parameter is declared behind those in front of it. -/
def parameterPoints (inside : List Token → List Enclosure) (before : List Token) :
    List Token → List Point
  | [] => []
  | p :: ps => ⟨inside before,.declare p⟩ :: parameterPoints inside (before ++ [p]) ps

namespace Stmt

mutual

def points (around : List Enclosure) : Stmt → List Point
  | .expression e | .print e => e.points around
  | .var name initializer =>
    ⟨around,.declare name⟩ :: Expr.optionPoints (.initializer name :: around) initializer
  | .block body => listPoints (fun before => .block before :: around) [] body
  | .branch condition thenBranch elseBranch =>
    condition.points around ++ (thenBranch.points around ++ optionPoints around elseBranch)
  | .loop condition body => condition.points around ++ body.points around
  | .function d => ⟨around,.declare d.name⟩ ::
      functionPoints (fun parameters before => .function parameters before :: around) d
  | .return keyword value => ⟨around,.return keyword value⟩ :: Expr.optionPoints around value
  | .class name superclass methods => ⟨around,.declare name⟩ ::
      (inheritancePoints around name superclass ++ (Expr.optionPoints around superclass ++
        methodPoints (.class superclass :: around) methods))

def optionPoints (around : List Enclosure) : Option Stmt → List Point
  | none => []
  | some s => s.points around

/-- Statements of one scope, each behind those in front of it. -/
def listPoints (inside : List Stmt → List Enclosure) (before : List Stmt) : List Stmt → List Point
  | [] => []
  | s :: ss => s.points (inside before) ++ listPoints inside (before ++ [s]) ss

def functionPoints (inside : List Token → List Stmt → List Enclosure) : FunctionDecl → List Point
  | ⟨_,parameters,body⟩ =>
    parameterPoints (inside · []) [] parameters ++ listPoints (inside parameters) [] body

def methodPoints (around : List Enclosure) : List FunctionDecl → List Point
  | [] => []
  | d :: ds =>
    functionPoints (fun parameters before => .method d.name parameters before :: around) d ++
      methodPoints around ds

end

end Stmt

/-- All points of a program. -/
def points (program : List Stmt) : List Point := Stmt.listPoints (fun _ => []) [] program

end Lox

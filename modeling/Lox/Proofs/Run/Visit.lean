import Lox.Proofs.Scoping.Place
import Lox.Session

/-! The pieces of work that a run consists of, each with the machine it starts on. -/
namespace Lox

/-- A program and the machine that is about to execute it. -/
structure Run where
  budget : Nat
  program : List Stmt
  machine : Machine

/-- A piece of work, with the budget for what it consists of. -/
inductive Work
  | program (budget : Nat) (ss : List Stmt)
  | stmts (budget : Nat) (ss : List Stmt)
  | stmt (budget : Nat) (s : Stmt)
  | loop (budget : Nat) (condition : Expr) (body : Stmt) (rounds : Nat)
  | expr (budget : Nat) (e : Expr)
  | exprs (budget : Nat) (es : List Expr)
  | invoke (budget : Nat) (callee : Value) (paren : Token) (arguments : List Value)
  | apply (budget : Nat) (f : FunctionId) (arguments : List Value)
  | bind (f : FunctionId) (receiver : InstanceId)
  | classDefinition (name : Token) (superclass : Option ClassId) (methods : List FunctionDecl)

namespace Machine

/-- The machine in a new scope. -/
def inNew (m : Machine) (s : Scope) : Machine :=
  { m with heap := (m.heap.addScope s).2, scope := (m.heap.addScope s).1 }

def deeper (m : Machine) : Machine := { m with depth := m.depth + 1 }

/-- The machine after an instance has been made. -/
def constructing (m : Machine) (c : ClassId) : Machine :=
  { m.note (.constructing (m.heap.getClass c).name) with heap := (m.heap.addInstance ⟨c,∅⟩).2 }

/-- The machine after a method has been bound. -/
def binding (m : Machine) (f : FunctionId) (receiver : InstanceId) : Machine :=
  { m with heap := (m.heap.bind f receiver).2 }

/-- The machine in the scope of a call. -/
def calling (m : Machine) (f : FunctionId) (arguments : List Value) : Machine :=
  (m.note (.functionCalled (m.heap.getFunction f).name)).inNew
    ⟨.ofList (((m.heap.getFunction f).declaration.parameters.map Token.lexeme).zip arguments),
      some (m.heap.getFunction f).closure⟩

end Machine

open Eval

/-- Work that is started directly by other work: what is started, and on which machine. -/
inductive Starts : Work → Machine → Work → Machine → Prop
  | grouping {n e m} : Starts (.expr (n + 1) (.grouping e)) m (.expr n e) m
  | unary {n op e m} : Starts (.expr (n + 1) (.unary op e)) m (.expr n e) m
  | binary_left {n a op b m} : Starts (.expr (n + 1) (.binary a op b)) m (.expr n a) m
  | binary_right {n a op b m v m₁} (ha : evaluate n a m = .ok v m₁) :
    Starts (.expr (n + 1) (.binary a op b)) m (.expr n b) m₁
  | logical_left {n a op b m} : Starts (.expr (n + 1) (.logical a op b)) m (.expr n a) m
  | logical_right {n a op b m v m₁} (ha : evaluate n a m = .ok v m₁)
    (hv : shortCircuits op v = false) : Starts (.expr (n + 1) (.logical a op b)) m (.expr n b) m₁
  | ternary_condition {n c a b m} : Starts (.expr (n + 1) (.ternary c a b)) m (.expr n c) m
  | ternary_true {n c a b m v m₁} (hc : evaluate n c m = .ok v m₁) (hv : v.isTruthy = true) :
    Starts (.expr (n + 1) (.ternary c a b)) m (.expr n a) m₁
  | ternary_false {n c a b m v m₁} (hc : evaluate n c m = .ok v m₁) (hv : v.isTruthy = false) :
    Starts (.expr (n + 1) (.ternary c a b)) m (.expr n b) m₁
  | assign_value {n id name e m} : Starts (.expr (n + 1) (.assign id name e)) m (.expr n e) m
  | callee {n e paren es m} : Starts (.expr (n + 1) (.call e paren es)) m (.expr n e) m
  | arguments {n e paren es m f m₁} (he : evaluate n e m = .ok f m₁) :
    Starts (.expr (n + 1) (.call e paren es)) m (.exprs n es) m₁
  | invoke {n e paren es m f m₁ vs m₂ name} (he : evaluate n e m = .ok f m₁)
    (hes : evaluateEach (evaluate n) es m₁ = .ok vs m₂)
    (hf : m₂.heap.callable? f = some (name,vs.length)) (hdepth : m₂.depth < Machine.maxDepth) :
    Starts (.expr (n + 1) (.call e paren es)) m (.invoke n f paren vs) m₂.deeper
  | get_object {n e name m} : Starts (.expr (n + 1) (.get e name)) m (.expr n e) m
  | get_method {n e name m i m₁ f} (he : evaluate n e m = .ok (.instance i) m₁)
    (hf : m₁.heap.property? i name.lexeme = some (.method f)) :
    Starts (.expr (n + 1) (.get e name)) m (.bind f i) m₁
  | set_object {n e name v m} : Starts (.expr (n + 1) (.set e name v)) m (.expr n e) m
  | set_value {n e name v m i m₁} (he : evaluate n e m = .ok (.instance i) m₁) :
    Starts (.expr (n + 1) (.set e name v)) m (.expr n v) m₁
  | super_method {n id keyword method m d c i f} (hd : m.distances.find? id = some (d + 1))
    (hc : m.heap.getAt m.scope (d + 1) "super" = .ok (.class c))
    (hi : m.heap.getAt m.scope d "this" = .ok (.instance i))
    (hf : m.heap.findMethod? c method.lexeme = some f) :
    Starts (.expr (n + 1) (.super id keyword method)) m (.bind f i)
      (m.note (.superFound method.lexeme (m.heap.getClass c).name keyword.line))
  | exprs_head {n e es m} : Starts (.exprs n (e :: es)) m (.expr n e) m
  | exprs_tail {n e es m v m₁} (he : evaluate n e m = .ok v m₁) :
    Starts (.exprs n (e :: es)) m (.exprs n es) m₁
  | expression {n e m} : Starts (.stmt (n + 1) (.expression e)) m (.expr n e) m
  | print {n e m} : Starts (.stmt (n + 1) (.print e)) m (.expr n e) m
  | var {n name e m} : Starts (.stmt (n + 1) (.var name (some e))) m (.expr n e) m
  | block {n body m} : Starts (.stmt (n + 1) (.block body)) m (.stmts n body)
      (m.inNew ⟨∅,some m.scope⟩)
  | branch_condition {n c s t m} : Starts (.stmt (n + 1) (.branch c s t)) m (.expr n c) m
  | branch_then {n c s t m v m₁} (hc : evaluate n c m = .ok v m₁) (hv : v.isTruthy = true) :
    Starts (.stmt (n + 1) (.branch c s t)) m (.stmt n s) m₁
  | branch_else {n c s t m v m₁} (hc : evaluate n c m = .ok v m₁) (hv : v.isTruthy = false) :
    Starts (.stmt (n + 1) (.branch c s (some t))) m (.stmt n t) m₁
  | loop {n c s m} : Starts (.stmt (n + 1) (.loop c s)) m (.loop n c s n) m
  | returning {n keyword e m} : Starts (.stmt (n + 1) (.return keyword (some e))) m (.expr n e) m
  | superclass {n name e methods m} : Starts (.stmt (n + 1) (.class name (some e) methods)) m
      (.expr n e) (m.note (.classDefined name.lexeme))
  | class_alone {n name methods m} : Starts (.stmt (n + 1) (.class name none methods)) m
      (.classDefinition name none methods) (m.note (.classDefined name.lexeme))
  | class_derived {n name e methods m c m₁}
    (he : evaluate n e (m.note (.classDefined name.lexeme)) = .ok (.class c) m₁) :
    Starts (.stmt (n + 1) (.class name (some e) methods)) m
      (.classDefinition name (some c) methods) m₁
  | loop_condition {n c s k m} : Starts (.loop n c s (k + 1)) m (.expr n c) m
  | loop_body {n c s k m v m₁} (hc : evaluate n c m = .ok v m₁) (hv : v.isTruthy = true) :
    Starts (.loop n c s (k + 1)) m (.stmt n s) m₁
  | loop_again {n c s k m v m₁ m₂} (hc : evaluate n c m = .ok v m₁) (hv : v.isTruthy = true)
    (hs : execute n s m₁ = .ok .normal m₂) : Starts (.loop n c s (k + 1)) m (.loop n c s k) m₂
  | stmts_head {n s ss m} : Starts (.stmts n (s :: ss)) m (.stmt n s) m
  | stmts_tail {n s ss m m₁} (hs : execute n s m = .ok .normal m₁) :
    Starts (.stmts n (s :: ss)) m (.stmts n ss) m₁
  | program_head {n s ss m} : Starts (.program n (s :: ss)) m (.stmt n s) m
  | program_tail {n s ss m flow m₁} (hs : execute n s m = .ok flow m₁) :
    Starts (.program n (s :: ss)) m (.program n ss) m₁
  | function {n f paren vs m} : Starts (.invoke n (.function f) paren vs) m (.apply n f vs) m
  | initializer {n c paren vs m f}
    (hf : (m.constructing c).heap.findMethod? c "init" = some f) :
    Starts (.invoke n (.class c) paren vs) m (.bind f ⟨m.heap.instances.size⟩) (m.constructing c)
  | construction {n c paren vs m f}
    (hf : (m.constructing c).heap.findMethod? c "init" = some f) :
    Starts (.invoke n (.class c) paren vs) m
      (.apply n ((m.constructing c).heap.bind f ⟨m.heap.instances.size⟩).1 vs)
      ((m.constructing c).binding f ⟨m.heap.instances.size⟩)
  | body {n f vs m} : Starts (.apply n f vs) m (.stmts n (m.heap.getFunction f).declaration.body)
      (m.calling f vs)

/-- Everything that is done in the course of a run. -/
inductive Visits (r : Run) : Work → Machine → Prop
  | start : Visits r (.program r.budget r.program) r.machine
  | step {w m w' m'} (h : Visits r w m) (hs : Starts w m w' m') : Visits r w' m'

/-- The clock is not called in the course of the run. -/
def Run.Timeless (r : Run) : Prop := ∀ n paren vs m, ¬Visits r (.invoke n (.native .clock) paren vs) m

/-- Work that makes a scope before anything else does, and the construct that the scope belongs to. -/
inductive Opens : Work → Machine → Site → Prop
  | block {n body m} : Opens (.stmt (n + 1) (.block body)) m (.block body)
  | call {n f vs m} : Opens (.apply n f vs) m (.call (m.heap.getFunction f).declaration)
  | receiver {f i m} : Opens (.bind f i) m (.receiver (m.heap.getFunction f).declaration)
  | superclass {name c methods m} : Opens (.classDefinition name (some c) methods) m
      (.superclass name methods)

/-- A scope that one of the runs has made for a construct. A scope gets the next free place. -/
def Activation (runs : List Run) (site : Site) (j : ScopeId) : Prop :=
  ∃ r ∈ runs, ∃ w m, Visits r w m ∧ Opens w m site ∧ j = ⟨m.heap.scopes.size⟩

theorem Activation.mono {runs later : List Run} (h : runs ⊆ later) {site : Site} {j : ScopeId} :
    Activation runs site j → Activation later site j
  | ⟨r,hr,visited⟩ => ⟨r,h hr,visited⟩

/-- Work that itself, and not a part of it, ends with an internal error. -/
inductive Raises : Work → Machine → InternalFault → Prop
  | variable {n id name m fault m₁} (h : lookUp id name m = .error (.error (.internal fault)) m₁) :
    Raises (.expr (n + 1) (.variable id name)) m fault
  | this {n id keyword m fault m₁} (h : lookUp id keyword m = .error (.error (.internal fault)) m₁) :
    Raises (.expr (n + 1) (.this id keyword)) m fault
  | super {n id keyword method m fault m₁}
    (h : superMethod id keyword method m = .error (.error (.internal fault)) m₁) :
    Raises (.expr (n + 1) (.super id keyword method)) m fault
  | assign {n id name e m v m₁ fault m₂} (he : evaluate n e m = .ok v m₁)
    (h : assign id name v m₁ = .error (.error (.internal fault)) m₂) :
    Raises (.expr (n + 1) (.assign id name e)) m fault
  | unary {n op e m v m₁ fault} (he : evaluate n e m = .ok v m₁)
    (h : applyUnary op v = .error (.internal fault)) :
    Raises (.expr (n + 1) (.unary op e)) m fault
  | binary {n a op b m v m₁ w m₂ fault} (ha : evaluate n a m = .ok v m₁)
    (hb : evaluate n b m₁ = .ok w m₂) (h : applyBinary op v w = .error (.internal fault)) :
    Raises (.expr (n + 1) (.binary a op b)) m fault
  | initializer {n f vs m flow m₁ fault}
    (hbody : executeEach (execute n) (m.heap.getFunction f).declaration.body (m.calling f vs) =
      .ok flow m₁) (hinit : (m.heap.getFunction f).isInitializer = true)
    (h : m₁.heap.getAt (m.heap.getFunction f).closure 0 "this" = .error fault) :
    Raises (.apply n f vs) m fault

end Lox

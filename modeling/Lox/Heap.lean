import Lox.Bindings
import Lox.Syntax
import Lox.Error
import Lox.Text.Quoted

/-! The objects of a running program. Scopes, functions, classes and instances are entries of
tables; a value refers to one by its place in its table, so that equal places mean the same
object. -/
namespace Lox

structure ScopeId where
  index : Nat
deriving DecidableEq, Repr

structure FunctionId where
  index : Nat
deriving DecidableEq, Repr

structure ClassId where
  index : Nat
deriving DecidableEq, Repr

structure InstanceId where
  index : Nat
deriving DecidableEq, Repr

/-- Functions that no program defines. -/
inductive Native
  | clock
deriving DecidableEq, Repr

namespace Native

def name : Native → String
  | clock => "clock"

def arity : Native → Nat
  | clock => 0

end Native

inductive Value
  | nil
  | boolean (b : Bool)
  | number (x : Float)
  | string (text : String)
  | native (f : Native)
  | function (f : FunctionId)
  | class (c : ClassId)
  | instance (i : InstanceId)
deriving DecidableEq

namespace Value

/-- Only `nil` and `false` count as false. -/
def isTruthy : Value → Bool
  | nil | boolean false => false
  | _ => true

/-- Equality as programs see it: numbers compare as numbers, values of different types differ, and
objects are equal when they are the same object. -/
def same : Value → Value → Bool
  | number x, number y => x == y
  | v, w => v == w

end Value

/-- One scope of the chain and the scope around it. -/
structure Scope where
  bindings : Bindings Value
  enclosing : Option ScopeId

instance : Inhabited Scope := ⟨⟨∅,none⟩⟩

/-- A declaration paired with the scope it closes over. -/
structure Function where
  declaration : FunctionDecl
  closure : ScopeId
  isInitializer : Bool

namespace Function

instance : Inhabited Function := ⟨⟨default,⟨0⟩,false⟩⟩

def name (f : Function) : String := f.declaration.name.lexeme

def arity (f : Function) : Nat := f.declaration.parameters.length

end Function

structure Class where
  name : String
  superclass : Option ClassId
  methods : Bindings FunctionId

instance : Inhabited Class := ⟨⟨"",none,∅⟩⟩

structure Instance where
  ofClass : ClassId
  fields : Bindings Value

instance : Inhabited Instance := ⟨⟨⟨0⟩,∅⟩⟩

structure Heap where
  scopes : Array Scope
  functions : Array Function
  classes : Array Class
  instances : Array Instance

namespace Heap

/-- The scope of global names is the first one. -/
def globals : ScopeId := ⟨0⟩

/-- A heap with an empty global scope. -/
def initial : Heap := ⟨#[default],#[],#[],#[]⟩

def getScope (h : Heap) (i : ScopeId) : Scope := h.scopes[i.index]?.getD default

def getFunction (h : Heap) (f : FunctionId) : Function := h.functions[f.index]?.getD default

def getClass (h : Heap) (c : ClassId) : Class := h.classes[c.index]?.getD default

def getInstance (h : Heap) (i : InstanceId) : Instance := h.instances[i.index]?.getD default

def addScope (h : Heap) (s : Scope) : ScopeId × Heap :=
  (⟨h.scopes.size⟩,{ h with scopes := h.scopes.push s })

def addFunction (h : Heap) (f : Function) : FunctionId × Heap :=
  (⟨h.functions.size⟩,{ h with functions := h.functions.push f })

def addClass (h : Heap) (c : Class) : ClassId × Heap :=
  (⟨h.classes.size⟩,{ h with classes := h.classes.push c })

def addInstance (h : Heap) (i : Instance) : InstanceId × Heap :=
  (⟨h.instances.size⟩,{ h with instances := h.instances.push i })

/-! ### Scopes -/

/-- Bind a name in one scope, whether or not it is bound there already. -/
def define (h : Heap) (i : ScopeId) (name : String) (value : Value) : Heap :=
  { h with scopes := h.scopes.modify i.index fun s =>
      { s with bindings := s.bindings.insert name value } }

/-- The nearest scope outward that binds a name, and the value it has there. A chain is no longer
than the table of scopes. -/
def lookup? (h : Heap) (name : String) : Nat → ScopeId → Option (ScopeId × Value)
  | 0, _ => none
  | fuel + 1, i =>
    let s := h.getScope i
    match s.bindings.find? name with
    | some value => some (i,value)
    | none => match s.enclosing with
      | none => none
      | some e => lookup? h name fuel e

/-- The value of a name in the nearest scope that binds it. -/
def get? (h : Heap) (i : ScopeId) (name : String) : Option Value :=
  (h.lookup? name h.scopes.size i).map Prod.snd

/-- The scope that an assignment to a name changes. -/
def holder? (h : Heap) (i : ScopeId) (name : String) : Option ScopeId :=
  (h.lookup? name h.scopes.size i).map Prod.fst

/-- Give the nearest binding of a name a new value. No binding is made. -/
def assign? (h : Heap) (i : ScopeId) (name : String) (value : Value) : Option Heap :=
  (h.holder? i name).map fun j => h.define j name value

/-- The scope that lies `left` steps outward, where `distance` are asked for in all. -/
def outward (h : Heap) (distance : Nat) : Nat → ScopeId → Except InternalFault ScopeId
  | 0, i => .ok i
  | left + 1, i => match (h.getScope i).enclosing with
    | none => .error (.chainEnded (distance - (left + 1)) distance)
    | some e => outward h distance left e

def ancestor (h : Heap) (i : ScopeId) (distance : Nat) : Except InternalFault ScopeId :=
  h.outward distance distance i

/-- The scope and the value of a name that must be bound exactly `distance` scopes out. -/
def lookupAt (h : Heap) (i : ScopeId) (distance : Nat) (name : String) :
    Except InternalFault (ScopeId × Value) :=
  match h.ancestor i distance with
  | .error fault => .error fault
  | .ok j => match (h.getScope j).bindings.find? name with
    | some value => .ok (j,value)
    | none => .error (.unbound name distance)

def getAt (h : Heap) (i : ScopeId) (distance : Nat) (name : String) :
    Except InternalFault Value :=
  (h.lookupAt i distance name).map Prod.snd

def holderAt (h : Heap) (i : ScopeId) (distance : Nat) (name : String) :
    Except InternalFault ScopeId :=
  (h.lookupAt i distance name).map Prod.fst

def assignAt (h : Heap) (i : ScopeId) (distance : Nat) (name : String) (value : Value) :
    Except InternalFault Heap :=
  (h.holderAt i distance name).map fun j => h.define j name value

/-- Empty a scope and cut it off from the one around it. -/
def clearScope (h : Heap) (i : ScopeId) : Heap :=
  { h with scopes := h.scopes.modify i.index fun _ => ⟨∅,none⟩ }

/-- The names of a scope and whether it has one around it, in the form used for inspection. -/
def describeScope (h : Heap) (i : ScopeId) : String :=
  let s := h.getScope i
  let names := (s.bindings.names.mergeSort fun a b => decide (a ≤ b)).map Text.inspect
  "Environment \x7b names: [" ++ ", ".intercalate names ++ "], has_enclosing: " ++
    toString s.enclosing.isSome ++ " \x7d"

/-! ### Classes and instances -/

/-- The method of the nearest class upward that has one of this name. A chain of superclasses is no
longer than the table of classes. -/
def searchMethod (h : Heap) (name : String) : Nat → ClassId → Option FunctionId
  | 0, _ => none
  | fuel + 1, c =>
    let k := h.getClass c
    match k.methods.find? name with
    | some f => some f
    | none => match k.superclass with
      | none => none
      | some parent => searchMethod h name fuel parent

def findMethod? (h : Heap) (c : ClassId) (name : String) : Option FunctionId :=
  h.searchMethod name h.classes.size c

/-- A class is called with the arguments of its initializer. -/
def classArity (h : Heap) (c : ClassId) : Nat :=
  match h.findMethod? c "init" with
  | none => 0
  | some f => (h.getFunction f).arity

/-- The same function with `this` bound around it. -/
def bind (h : Heap) (f : FunctionId) (receiver : InstanceId) : FunctionId × Heap :=
  let method := h.getFunction f
  let (closure,h) :=
    h.addScope ⟨(∅ : Bindings Value).insert "this" (.instance receiver),some method.closure⟩
  h.addFunction { method with closure := closure }

/-- What a property of an instance is. -/
inductive Property
  | field (value : Value)
  | method (f : FunctionId)
deriving DecidableEq

/-- Fields come before methods. -/
def property? (h : Heap) (i : InstanceId) (name : String) : Option Property :=
  match (h.getInstance i).fields.find? name with
  | some value => some (.field value)
  | none => (h.findMethod? (h.getInstance i).ofClass name).map .method

def setField (h : Heap) (i : InstanceId) (name : String) (value : Value) : Heap :=
  { h with instances := h.instances.modify i.index fun o =>
      { o with fields := o.fields.insert name value } }

def clearFields (h : Heap) (i : InstanceId) : Heap :=
  { h with instances := h.instances.modify i.index fun o => { o with fields := ∅ } }

/-! ### Values -/

/-- Integral numbers show every digit, without a decimal point. -/
def numberLayout : Decimal.Layout where
  exactIntegers := true
  afterInteger := ""
  tie := .up
  positional := none
  infinity := "inf"
  negativeInfinity := "-inf"
  notANumber := "NaN"

/-- The text of a value, as it is printed. -/
def display (h : Heap) : Value → String
  | .nil => "nil"
  | .boolean b => if b then "true" else "false"
  | .number x => numberLayout.render x
  | .string text => text
  | .native _ => "<native fn>"
  | .function f => "<fn " ++ (h.getFunction f).name ++ ">"
  | .class c => (h.getClass c).name
  | .instance i => (h.getClass (h.getInstance i).ofClass).name ++ " instance"

/-- The name and arity of a value that can be called. -/
def callable? (h : Heap) : Value → Option (String × Nat)
  | .native f => some (f.name,f.arity)
  | .function f => some ((h.getFunction f).name,(h.getFunction f).arity)
  | .class c => some ((h.getClass c).name,h.classArity c)
  | _ => none

end Heap
end Lox

import Lox.Machine

/-! What expressions and statements do. `evaluate` and `execute` are total: their budget bounds
how deeply syntax and calls nest and how often one loop goes round, and a run that would need
more ends as `exhausted`. -/
namespace Lox

/-- How a statement finished. -/
inductive Flow
  | normal
  | returned (value : Value)
deriving DecidableEq

/-- The value of a literal. -/
def Literal.value : Literal → Value
  | number x => .number x
  | string text => .string text
  | boolean b => .boolean b
  | nil => .nil

/-! ### Operators -/

def applyUnary (operator : Token) (right : Value) : Except Error Value :=
  match operator.kind with
  | .minus => match right with
    | .number x => .ok (.number (-x))
    | _ => .error (.runtime .numberOperand operator.line)
  | .bang => .ok (.boolean !right.isTruthy)
  | _ => .error (.internal (.unaryOperator operator.lexeme))

/-- An operator that works on two numbers. -/
def onNumbers (operator : Token) (left right : Value) (f : Float → Float → Except Error Value) :
    Except Error Value :=
  match left, right with
  | .number x, .number y => f x y
  | _, _ => .error (.runtime .numberOperands operator.line)

def applyBinary (operator : Token) (left right : Value) : Except Error Value :=
  match operator.kind with
  | .plus => match left, right with
    | .number x, .number y => .ok (.number (x + y))
    | .string s, .string t => .ok (.string (s ++ t))
    | _, _ => .error (.runtime .sumOperands operator.line)
  | .minus => onNumbers operator left right fun x y => .ok (.number (x - y))
  | .star => onNumbers operator left right fun x y => .ok (.number (x * y))
  | .slash => onNumbers operator left right fun x y =>
    if y == 0 then .error (.runtime .divisionByZero operator.line) else .ok (.number (x / y))
  | .greater => onNumbers operator left right fun x y => .ok (.boolean (decide (x > y)))
  | .greaterEqual => onNumbers operator left right fun x y => .ok (.boolean (decide (x ≥ y)))
  | .less => onNumbers operator left right fun x y => .ok (.boolean (decide (x < y)))
  | .lessEqual => onNumbers operator left right fun x y => .ok (.boolean (decide (x ≤ y)))
  | .equalEqual => .ok (.boolean (left.same right))
  | .bangEqual => .ok (.boolean !left.same right)
  | _ => .error (.internal (.binaryOperator operator.lexeme))

/-- `or` stops at a true left operand, any other logical operator at a false one. -/
def shortCircuits (operator : Token) (left : Value) : Bool :=
  if operator.kind = .kwOr then left.isTruthy else !left.isTruthy

namespace Eval

/-! ### Variables and properties -/

def lookUp (id : ExprId) (name : Token) : Eval Value := do
  let m ← get
  match m.distances.find? id with
  | some distance => checked (m.heap.getAt m.scope distance name.lexeme)
  | none => match m.heap.get? Heap.globals name.lexeme with
    | some value => return value
    | none => runtime (.undefinedVariable name.lexeme) name

/-- The scope that an assignment changes; a global name must exist. -/
def target (id : ExprId) (name : Token) : Eval ScopeId := do
  let m ← get
  match m.distances.find? id with
  | some distance => checked (m.heap.holderAt m.scope distance name.lexeme)
  | none => match m.heap.holder? Heap.globals name.lexeme with
    | some scope => return scope
    | none => runtime (.undefinedVariable name.lexeme) name

def assign (id : ExprId) (name : Token) (value : Value) : Eval Unit := do
  let scope ← target id name
  changeHeap (·.define scope name.lexeme value)

/-- A property of a value. A method comes back bound to its instance. -/
def getProperty (object : Value) (name : Token) : Eval Value := do
  match object with
  | .instance i => match (← heap).property? i name.lexeme with
    | some (.field value) => return value
    | some (.method f) => return .function (← allocate (·.bind f i))
    | none => runtime (.undefinedProperty name.lexeme) name
  | _ => runtime .propertyOfNonInstance name

/-- The superclass's method, bound to the instance that is `this` in the scope just inside the one
that holds `super`. -/
def superMethod (id : ExprId) (keyword method : Token) : Eval Value := do
  let m ← get
  match m.distances.find? id with
  | none => raise (.internal .superUnresolved)
  | some distance => match ← checked (m.heap.getAt m.scope distance "super") with
    | .class parent => match distance with
      | 0 => raise (.internal .superWithoutThis)
      | inner + 1 => match ← checked (m.heap.getAt m.scope inner "this") with
        | .instance receiver => match m.heap.findMethod? parent method.lexeme with
          | none => runtime (.undefinedProperty method.lexeme) method
          | some f =>
            note (.superFound method.lexeme (m.heap.getClass parent).name keyword.line)
            return .function (← allocate (·.bind f receiver))
        | _ => raise (.internal .thisNotInstance)
    | _ => raise (.internal .superNotClass)

/-! ### Calls -/

/-- What a call gives when its body is done. An initializer always gives its instance. -/
def callResult (callee : Function) (flow : Flow) : Eval Value := do
  if callee.isInitializer then checked ((← heap).getAt callee.closure 0 "this")
  else match flow with
    | .normal => return .nil
    | .returned value => return value

/-- Run the body of a function in a new scope that holds the arguments. -/
def apply (execute : List Stmt → Eval Flow) (f : FunctionId) (arguments : List Value) :
    Eval Value := do
  let callee := (← heap).getFunction f
  note (.functionCalled callee.name)
  let names := callee.declaration.parameters.map Token.lexeme
  let flow ← inNew ⟨.ofList (names.zip arguments),some callee.closure⟩
    (execute callee.declaration.body)
  callResult callee flow

/-- Make an instance and run the initializer on it, if there is one. -/
def construct (execute : List Stmt → Eval Flow) (c : ClassId) (arguments : List Value) :
    Eval Value := do
  note (.constructing ((← heap).getClass c).name)
  let i ← allocate (·.addInstance ⟨c,∅⟩)
  match (← heap).findMethod? c "init" with
  | none => return .instance i
  | some f =>
    let bound ← allocate (·.bind f i)
    let _ ← apply execute bound arguments
    return .instance i

def invoke (execute : List Stmt → Eval Flow) (callee : Value) (paren : Token)
    (arguments : List Value) : Eval Value :=
  match callee with
  | .native f => do
    note (.nativeCalled f.name)
    return .number (Float.ofNat (← readClock))
  | .function f => apply execute f arguments
  | .class c => construct execute c arguments
  | _ => runtime .notCallable paren

/-- Check that a value can be called, the number of arguments and the depth, then call it. -/
def call (execute : List Stmt → Eval Flow) (callee : Value) (paren : Token)
    (arguments : List Value) : Eval Value := do
  let m ← get
  match m.heap.callable? callee with
  | none => runtime .notCallable paren
  | some (name,arity) =>
    if arguments.length ≠ arity then runtime (.arity arity arguments.length) paren
    else if Machine.maxDepth ≤ m.depth then
      note (.depthLimit name)
      stop (.stackOverflow paren.line)
    else nested (invoke execute callee paren arguments)

/-! ### Declarations -/

/-- The class that a class declaration gives as the superclass. -/
def superclassOf (evaluate : Expr → Eval Value) (name : Token) :
    Option Expr → Eval (Option ClassId)
  | none => return none
  | some e => do
    match ← evaluate e with
    | .class c => return some c
    | _ => match e with
      | .variable _ parent => runtime .superclassNotClass parent
      | _ => runtime .superclassNotClass name

def addMethods (closure : ScopeId) : List FunctionDecl → Eval (List (String × FunctionId))
  | [] => return []
  | d :: ds => do
    let f ← allocate (·.addFunction ⟨d,closure,d.name.lexeme == "init"⟩)
    return (d.name.lexeme,f) :: (← addMethods closure ds)

/-- The scope that the methods of a class close over: those of a subclass have one more, which holds
`super`. -/
def methodScope (superclass : Option ClassId) : Eval ScopeId := do
  let scope := (← get).scope
  match superclass with
  | none => return scope
  | some parent =>
    allocate (·.addScope ⟨(∅ : Bindings Value).insert "super" (.class parent),some scope⟩)

/-- Bind a class's name, at first to `nil`, and then to the class. -/
def defineClass (name : Token) (superclass : Option ClassId) (methods : List FunctionDecl) :
    Eval Unit := do
  define name.lexeme .nil
  let closure ← methodScope superclass
  let methods ← addMethods closure methods
  let c ← allocate (·.addClass ⟨name.lexeme,superclass,.ofList methods⟩)
  let m ← get
  match m.heap.holder? m.scope name.lexeme with
  | some holder => changeHeap (·.define holder name.lexeme (.class c))
  | none => runtime (.undefinedVariable name.lexeme) name

/-! ### Sequences and loops -/

def evaluateEach (evaluate : Expr → Eval Value) : List Expr → Eval (List Value)
  | [] => return []
  | e :: es => do
    let v ← evaluate e
    return v :: (← evaluateEach evaluate es)

/-- Statements in order, up to the first that returns. -/
def executeEach (execute : Stmt → Eval Flow) : List Stmt → Eval Flow
  | [] => return .normal
  | s :: ss => do
    match ← execute s with
    | .normal => executeEach execute ss
    | .returned value => return .returned value

def whileLoop (condition : Eval Value) (body : Eval Flow) : Nat → Eval Flow
  | 0 => exhausted
  | n + 1 => do
    if (← condition).isTruthy then
      match ← body with
      | .normal => whileLoop condition body n
      | .returned value => return .returned value
    else return .normal

end Eval

open Eval

mutual

def evaluate : Nat → Expr → Eval Value
  | 0, _ => exhausted
  | n + 1, e => match e with
    | .literal literal => return literal.value
    | .grouping inner => evaluate n inner
    | .unary operator right => do
      outcome (applyUnary operator (← evaluate n right))
    | .binary left operator right => do
      let a ← evaluate n left
      let b ← evaluate n right
      outcome (applyBinary operator a b)
    | .logical left operator right => do
      let a ← evaluate n left
      if shortCircuits operator a then return a else evaluate n right
    | .ternary condition ifTrue ifFalse => do
      if (← evaluate n condition).isTruthy then evaluate n ifTrue else evaluate n ifFalse
    | .variable id name => lookUp id name
    | .assign id name value => do
      let v ← evaluate n value
      assign id name v
      return v
    | .call callee paren arguments => do
      let f ← evaluate n callee
      let values ← evaluateEach (evaluate n) arguments
      call (executeEach (execute n)) f paren values
    | .get object name => do
      getProperty (← evaluate n object) name
    | .set object name value => do
      match ← evaluate n object with
      | .instance i =>
        let v ← evaluate n value
        changeHeap (·.setField i name.lexeme v)
        return v
      | _ => runtime .fieldOfNonInstance name
    | .this id keyword => lookUp id keyword
    | .super id keyword method => superMethod id keyword method

def execute : Nat → Stmt → Eval Flow
  | 0, _ => exhausted
  | n + 1, s => match s with
    | .expression e => do
      let _ ← evaluate n e
      return .normal
    | .print e => do
      let v ← evaluate n e
      print ((← heap).display v)
      return .normal
    | .var name initializer => do
      let v ← match initializer with
        | none => pure .nil
        | some e => evaluate n e
      note (.variableDefined name.lexeme)
      define name.lexeme v
      return .normal
    | .block body => do
      inNew ⟨∅,some (← get).scope⟩ (executeEach (execute n) body)
    | .branch condition thenBranch elseBranch => do
      if (← evaluate n condition).isTruthy then execute n thenBranch
      else match elseBranch with
        | none => return .normal
        | some s => execute n s
    | .loop condition body => whileLoop (evaluate n condition) (execute n body) n
    | .function declaration => do
      note (.functionDefined declaration.name.lexeme)
      let scope := (← get).scope
      let f ← allocate (·.addFunction ⟨declaration,scope,false⟩)
      define declaration.name.lexeme (.function f)
      return .normal
    | .return _ value => do
      match value with
      | none => return .returned .nil
      | some e => return .returned (← evaluate n e)
    | .class name superclass methods => do
      note (.classDefined name.lexeme)
      let parent ← superclassOf (evaluate n) name superclass
      defineClass name parent methods
      return .normal

end

end Lox

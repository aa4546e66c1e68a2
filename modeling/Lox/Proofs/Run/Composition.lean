import Lox.Session

/-! What holds of all that expressions and statements do, because it holds of elementary computations and is kept when
computations are put together. -/
namespace Lox

namespace Machine

/-- The machine with another output and another clock. -/
def amid (m : Machine) (o : Output) (c : Clock) : Machine := { m with output := o, clock := c }

variable (m : Machine) (o : Output) (c : Clock)

@[simp] theorem amid_heap : (m.amid o c).heap = m.heap := rfl
@[simp] theorem amid_scope : (m.amid o c).scope = m.scope := rfl
@[simp] theorem amid_depth : (m.amid o c).depth = m.depth := rfl
@[simp] theorem amid_distances : (m.amid o c).distances = m.distances := rfl
@[simp] theorem amid_output : (m.amid o c).output = o := rfl
@[simp] theorem amid_clock : (m.amid o c).clock = c := rfl
@[simp] theorem amid_log : (m.amid o c).log = m.log := rfl

@[simp] theorem amid_self : m.amid m.output m.clock = m := rfl

end Machine

open Eval

/-- A property of computations that those have which only report or stop, and that is kept when one follows another.
What is done next may depend on the machine, but not on its output or its clock. -/
structure Eval.Composes (P : ∀ {α : Type}, Eval α → Prop) : Prop where
  pure {α : Type} (a : α) : P (pure a : Eval α)
  bind {α β : Type} {x : Eval α} {f : α → Eval β} (hx : P x) (hf : ∀ a, P (f a)) : P (x >>= f)
  get {β : Type} {f : Machine → Eval β} (hf : ∀ m, P (f m)) (hsame : ∀ m o c, f (m.amid o c) = f m) :
    P (MonadState.get >>= f)
  note (e : Event) : P (note e)
  raise {α : Type} (e : Error) : P (raise e : Eval α)
  bindMethod (f : FunctionId) (i : InstanceId) : P (allocate (·.bind f i))

namespace Eval.Composes

variable {P : ∀ {α : Type}, Eval α → Prop} (h : Composes @P) {α β : Type}
include h

theorem heap {f : Heap → Eval β} (hf : ∀ k, P (f k)) : P (Eval.heap >>= f) :=
  h.get (fun m => hf m.heap) fun _ _ _ => rfl

theorem runtime (fault : RuntimeFault) (found : Token) : P (runtime fault found : Eval α) := h.raise _

theorem outcome (r : Except Error α) : P (outcome r) := by
  cases r with
  | ok a => exact h.pure a
  | error e => exact h.raise e

theorem checked (r : Except InternalFault α) : P (checked r) := by
  cases r with
  | ok a => exact h.pure a
  | error fault => exact h.raise _

/-! ### Variables, properties and results -/

theorem lookUp (id : ExprId) (name : Token) : P (lookUp id name) := by
  refine h.get (fun m => ?_) fun _ _ _ => rfl
  cases m.distances.find? id with
  | some distance => exact h.checked _
  | none => cases m.heap.get? Heap.globals name.lexeme with
    | some v => exact h.pure v
    | none => exact h.runtime _ name

theorem target (id : ExprId) (name : Token) : P (target id name) := by
  refine h.get (fun m => ?_) fun _ _ _ => rfl
  cases m.distances.find? id with
  | some distance => exact h.checked _
  | none => cases m.heap.holder? Heap.globals name.lexeme with
    | some scope => exact h.pure scope
    | none => exact h.runtime _ name

theorem getProperty (object : Value) (name : Token) : P (getProperty object name) := by
  cases object with
  | «instance» i =>
    refine h.heap fun k => ?_
    cases k.property? i name.lexeme with
    | none => exact h.runtime _ name
    | some property => cases property with
      | field v => exact h.pure v
      | method f => exact h.bind (h.bindMethod f i) fun g => h.pure _
  | _ => exact h.runtime _ name

theorem superMethod (id : ExprId) (keyword method : Token) : P (superMethod id keyword method) := by
  refine h.get (fun m => ?_) fun _ _ _ => rfl
  cases m.distances.find? id with
  | none => exact h.raise _
  | some distance =>
    refine h.bind (h.checked _) fun parent => ?_
    cases parent with
    | «class» c => cases distance with
      | zero => exact h.raise _
      | succ inner =>
        refine h.bind (h.checked _) fun receiver => ?_
        cases receiver with
        | «instance» i => cases m.heap.findMethod? c method.lexeme with
          | none => exact h.runtime _ method
          | some f => exact h.bind (h.note _) fun _ => h.bind (h.bindMethod f i) fun g => h.pure _
        | _ => exact h.raise _
    | _ => exact h.raise _

theorem callResult (callee : Function) (flow : Flow) : P (callResult callee flow) := by
  unfold Eval.callResult
  split
  · exact h.heap fun k => h.checked _
  · cases flow with
    | normal => exact h.pure _
    | returned v => exact h.pure v

/-! ### Declarations, sequences and loops -/

theorem addMethods (hadd : ∀ f, P (allocate (·.addFunction f))) (closure : ScopeId) (ds : List FunctionDecl) :
    P (addMethods closure ds) := by
  induction ds with
  | nil => exact h.pure []
  | cons d ds ih => exact h.bind (hadd _) fun f => h.bind ih fun fs => h.pure _

theorem methodScope (hadd : ∀ s, P (allocate (·.addScope s))) (superclass : Option ClassId) :
    P (methodScope superclass) := by
  refine h.get (fun m => ?_) fun _ _ _ => rfl
  cases superclass with
  | none => exact h.pure m.scope
  | some parent => exact hadd _

theorem superclassOf {evaluate : Expr → Eval Value} (hevaluate : ∀ e, P (evaluate e)) (name : Token)
    (superclass : Option Expr) : P (superclassOf evaluate name superclass) := by
  cases superclass with
  | none => exact h.pure none
  | some e =>
    refine h.bind (hevaluate e) fun v => ?_
    cases v with
    | «class» c => exact h.pure _
    | _ => cases e <;> exact h.runtime _ _

theorem evaluateEach {evaluate : Expr → Eval Value} (hevaluate : ∀ e, P (evaluate e)) (es : List Expr) :
    P (evaluateEach evaluate es) := by
  induction es with
  | nil => exact h.pure []
  | cons e es ih => exact h.bind (hevaluate e) fun v => h.bind ih fun vs => h.pure _

theorem executeEach {execute : Stmt → Eval Flow} (hexecute : ∀ s, P (execute s)) (ss : List Stmt) :
    P (executeEach execute ss) := by
  induction ss with
  | nil => exact h.pure _
  | cons s ss ih =>
    refine h.bind (hexecute s) fun flow => ?_
    cases flow with
    | normal => exact ih
    | returned v => exact h.pure _

theorem whileLoop (hexhausted : P (exhausted : Eval Flow)) {condition : Eval Value} {body : Eval Flow}
    (hcondition : P condition) (hbody : P body) (rounds : Nat) : P (whileLoop condition body rounds) := by
  induction rounds with
  | zero => exact hexhausted
  | succ rounds ih =>
    refine h.bind hcondition fun v => ?_
    split
    · refine h.bind hbody fun flow => ?_
      cases flow with
      | normal => exact ih
      | returned v => exact h.pure _
    · exact h.pure _

theorem executeProgram {n : Nat} (hexecute : ∀ s, P (execute n s)) (ss : List Stmt) :
    P (Machine.executeProgram n ss) := by
  induction ss with
  | nil => exact h.pure ()
  | cons s ss ih => exact h.bind (hexecute s) fun _ => ih

end Eval.Composes

theorem Eval.Composes.all {ι : Type} {P : ι → ∀ {α : Type}, Eval α → Prop} (h : ∀ i, Composes fun x => P i x) :
    Composes fun x => ∀ i, P i x where
  pure a i := (h i).pure a
  bind hx hf i := (h i).bind (hx i) fun a => hf a i
  get hf hsame i := (h i).get (fun m => hf m i) hsame
  note e i := (h i).note e
  raise e i := (h i).raise e
  bindMethod f j i := (h i).bindMethod f j

theorem Eval.Composes.and {P Q : ∀ {α : Type}, Eval α → Prop} (h : Composes @P) (h' : Composes @Q) :
    Composes fun x => P x ∧ Q x where
  pure a := ⟨h.pure a,h'.pure a⟩
  bind hx hf := ⟨h.bind hx.1 fun a => (hf a).1,h'.bind hx.2 fun a => (hf a).2⟩
  get hf hsame := ⟨h.get (fun m => (hf m).1) hsame,h'.get (fun m => (hf m).2) hsame⟩
  note e := ⟨h.note e,h'.note e⟩
  raise e := ⟨h.raise e,h'.raise e⟩
  bindMethod f i := ⟨h.bindMethod f i,h'.bindMethod f i⟩

/-! ### Expressions and statements -/

/-- One property for what expressions do, and a weaker one for what statements do, which may bind names in the scope
that they run in. -/
structure Eval.Governs (P Q : ∀ {α : Type}, Eval α → Prop) : Prop extends Composes @P where
  statement : Composes @Q
  weaken {α : Type} {x : Eval α} (hx : P x) : Q x
  stop {α : Type} (e : Error) : P (stop e : Eval α)
  exhausted {α : Type} : P (exhausted : Eval α)
  print (text : String) : P (print text)
  readClock : P readClock
  inNew {α : Type} {x : Eval α} (hx : Q x) (s : Scope) : P (inNew s x)
  nested {α : Type} {x : Eval α} (hx : P x) : P (nested x)
  addScope (s : Scope) : P (allocate (·.addScope s))
  addFunction (f : Function) : P (allocate (·.addFunction f))
  addClass (k : Class) : P (allocate (·.addClass k))
  addInstance (o : Instance) : P (allocate (·.addInstance o))
  setField (i : InstanceId) (name : String) (v : Value) : P (changeHeap (·.setField i name v))
  assign (id : ExprId) (name : Token) (v : Value) : P (assign id name v)
  define (name : String) (v : Value) : Q (define name v)
  bindClass (name : Token) (c : ClassId) : P (do
    let m ← MonadState.get
    match m.heap.holder? m.scope name.lexeme with
    | some holder => changeHeap (·.define holder name.lexeme (.class c))
    | none => runtime (.undefinedVariable name.lexeme) name)

namespace Eval.Governs

variable {P Q : ∀ {α : Type}, Eval α → Prop} (h : Governs @P @Q)
include h

theorem defineClass (name : Token) (superclass : Option ClassId) (methods : List FunctionDecl) :
    Q (defineClass name superclass methods) :=
  h.statement.bind (h.define _ _) fun _ =>
    h.statement.bind (h.weaken (h.methodScope h.addScope superclass)) fun closure =>
      h.statement.bind (h.weaken (h.addMethods h.addFunction closure methods)) fun _ =>
        h.statement.bind (h.weaken (h.addClass _)) fun c => h.weaken (h.bindClass name c)

section

variable {execute : List Stmt → Eval Flow} (hexecute : ∀ ss, Q (execute ss))
include hexecute

theorem apply (f : FunctionId) (vs : List Value) : P (apply execute f vs) :=
  h.heap fun _ => h.bind (h.note _) fun _ => h.bind (h.inNew (hexecute _) _) fun flow => h.callResult _ flow

theorem construct (c : ClassId) (vs : List Value) : P (construct execute c vs) := by
  refine h.heap fun _ => h.bind (h.note _) fun _ => h.bind (h.addInstance _) fun i => h.heap fun k => ?_
  cases k.findMethod? c "init" with
  | none => exact h.pure _
  | some f => exact h.bind (h.bindMethod f i) fun bound => h.bind (apply h hexecute bound vs) fun _ => h.pure _

theorem invoke (callee : Value) (paren : Token) (vs : List Value) : P (invoke execute callee paren vs) := by
  cases callee with
  | native f => exact h.bind (h.note _) fun _ => h.bind h.readClock fun n => h.pure _
  | function f => exact apply h hexecute f vs
  | «class» c => exact construct h hexecute c vs
  | _ => exact h.runtime _ paren

theorem call (callee : Value) (paren : Token) (vs : List Value) : P (call execute callee paren vs) := by
  refine h.get (fun m => ?_) fun _ _ _ => rfl
  cases m.heap.callable? callee with
  | none => exact h.runtime _ paren
  | some nameArity =>
    dsimp only
    split
    · exact h.runtime _ paren
    · split
      · exact h.bind (h.note _) fun _ => h.stop _
      · exact h.nested (invoke h hexecute callee paren vs)

end

variable {n : Nat}

theorem expr_succ (hexpr : ∀ e, P (evaluate n e)) (hstmts : ∀ ss, Q (executeEach (execute n) ss)) (e : Expr) :
    P (evaluate (n + 1) e) := by
  cases e with
  | literal l => exact h.pure l.value
  | grouping inner => exact hexpr inner
  | unary op right => exact h.bind (hexpr right) fun v => h.outcome _
  | binary left op right => exact h.bind (hexpr left) fun v => h.bind (hexpr right) fun w => h.outcome _
  | logical left op right =>
    refine h.bind (hexpr left) fun v => ?_
    split
    · exact h.pure v
    · exact hexpr right
  | ternary c a b =>
    refine h.bind (hexpr c) fun v => ?_
    split
    · exact hexpr a
    · exact hexpr b
  | «variable» id name => exact h.lookUp id name
  | assign id name e => exact h.bind (hexpr e) fun v => h.bind (h.assign id name v) fun _ => h.pure v
  | call callee paren es =>
    exact h.bind (hexpr callee) fun f => h.bind (h.evaluateEach hexpr es) fun vs => call h hstmts f paren vs
  | get object name => exact h.bind (hexpr object) fun v => h.getProperty v name
  | set object name e =>
    refine h.bind (hexpr object) fun v => ?_
    cases v with
    | «instance» i => exact h.bind (hexpr e) fun w => h.bind (h.setField i name.lexeme w) fun _ => h.pure w
    | _ => exact h.runtime _ name
  | this id keyword => exact h.lookUp id keyword
  | super id keyword method => exact h.superMethod id keyword method

theorem stmt_succ (hexpr : ∀ e, P (evaluate n e)) (hstmt : ∀ s, Q (execute n s)) (s : Stmt) :
    Q (execute (n + 1) s) := by
  have hq := h.statement
  have hvalue (e : Expr) : Q (evaluate n e) := h.weaken (hexpr e)
  cases s with
  | expression e => exact hq.bind (hvalue e) fun _ => hq.pure _
  | print e =>
    exact hq.bind (hvalue e) fun v => hq.heap fun k => hq.bind (h.weaken (h.print _)) fun _ => hq.pure _
  | var name initializer =>
    have hdefine (v : Value) : Q (do
        Eval.note (.variableDefined name.lexeme)
        Eval.define name.lexeme v
        return Flow.normal) := hq.bind (hq.note _) fun _ => hq.bind (h.define _ v) fun _ => hq.pure _
    cases initializer with
    | none => exact hq.bind (hq.pure _) hdefine
    | some e => exact hq.bind (hvalue e) hdefine
  | block body =>
    have hbody := hq.executeEach hstmt body
    exact h.weaken (h.get (fun m => h.inNew hbody _) fun _ _ _ => rfl)
  | branch c s t =>
    refine hq.bind (hvalue c) fun v => ?_
    split
    · exact hstmt s
    · cases t with
      | none => exact hq.pure _
      | some t => exact hstmt t
  | loop c body => exact hq.whileLoop (h.weaken h.exhausted) (hvalue c) (hstmt body) n
  | function d =>
    refine hq.bind (hq.note _) fun _ => hq.get (fun m => ?_) fun _ _ _ => rfl
    exact hq.bind (h.weaken (h.addFunction _)) fun f => hq.bind (h.define _ _) fun _ => hq.pure _
  | «return» keyword value =>
    cases value with
    | none => exact hq.pure _
    | some e => exact hq.bind (hvalue e) fun v => hq.pure _
  | «class» name superclass methods =>
    exact hq.bind (hq.note _) fun _ => hq.bind (h.weaken (h.superclassOf hexpr name superclass)) fun parent =>
      hq.bind (h.defineClass name parent methods) fun _ => hq.pure _

/-- By induction on the budget. -/
theorem all (n : Nat) : (∀ e, P (evaluate n e)) ∧ ∀ s, Q (execute n s) := by
  induction n with
  | zero => exact ⟨fun _ => h.exhausted,fun _ => h.weaken h.exhausted⟩
  | succ n ih =>
    obtain ⟨hexpr,hstmt⟩ := ih
    exact ⟨h.expr_succ hexpr (h.statement.executeEach hstmt),h.stmt_succ hexpr hstmt⟩

end Eval.Governs

end Lox

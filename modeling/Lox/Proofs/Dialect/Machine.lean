import Lox.Proofs.Dialect.Heap

/-! A program leaves the heap within its dialect, however it ends. -/
namespace Lox

/-- From a heap within the dialect a computation comes to another one, and to a result of some kind. -/
structure Eval.Obeys {α : Type} (d : Dialect) (Q : α → Prop) (x : Eval α) : Prop where
  ok : ∀ {m a m₁}, m.heap.Within d → x m = .ok a m₁ → m₁.heap.Within d ∧ Q a
  error : ∀ {m halt m₁}, m.heap.Within d → x m = .error halt m₁ → m₁.heap.Within d

def Flow.Within (d : Dialect) : Flow → Prop
  | normal => True
  | returned v => v.Within d

namespace Eval.Obeys

variable {α β : Type} {d : Dialect} {Q : α → Prop} {R : β → Prop} {x : Eval α} {f : α → Eval β}

/-! ### Elementary computations -/

theorem of_ok {a : Machine → α} {change : Machine → Machine} (hx : ∀ m, x m = .ok (a m) (change m))
    (h : ∀ m, m.heap.Within d → (change m).heap.Within d ∧ Q (a m)) : x.Obeys d Q where
  ok {m _ _} hm ha := by
    obtain ⟨rfl,rfl⟩ := EStateM.Result.ok.inj ((hx m).symm.trans ha)
    exact h m hm
  error {m _ _} _ he := by simp [hx m] at he

theorem of_error {change : Machine → Machine} {halt : Halt} (hx : ∀ m, x m = .error halt (change m))
    (h : ∀ m, m.heap.Within d → (change m).heap.Within d) : x.Obeys d Q where
  ok {m _ _} _ ha := by simp [hx m] at ha
  error {m _ _} hm he := by
    obtain ⟨rfl,rfl⟩ := EStateM.Result.error.inj ((hx m).symm.trans he)
    exact h m hm

theorem pure {a : α} (ha : Q a) : (pure a : Eval α).Obeys d Q := of_ok (fun _ => rfl) fun _ hm => ⟨hm,ha⟩

theorem get : (get : Eval Machine).Obeys d fun m => m.heap.Within d := of_ok (fun _ => rfl) fun _ hm => ⟨hm,hm⟩

theorem heap : Eval.heap.Obeys d fun h => h.Within d := of_ok (fun _ => rfl) fun _ hm => ⟨hm,hm⟩

theorem bind (hx : x.Obeys d Q) (hf : ∀ a, Q a → (f a).Obeys d R) : (x >>= f).Obeys d R where
  ok {m b m₂} hm hb := by
    simp only [Bind.bind,EStateM.bind] at hb
    split at hb
    next a m₁ ha =>
      obtain ⟨hm₁,hQ⟩ := hx.ok hm ha
      exact (hf a hQ).ok hm₁ hb
    next => cases hb
  error {m halt m₂} hm he := by
    simp only [Bind.bind,EStateM.bind] at he
    split at he
    next a m₁ ha =>
      obtain ⟨hm₁,hQ⟩ := hx.ok hm ha
      exact (hf a hQ).error hm₁ he
    next he' =>
      cases he
      exact hx.error hm he'

theorem ite {c : Prop} [Decidable c] {y : Eval α} (hx : x.Obeys d Q) (hy : y.Obeys d Q) :
    (if c then x else y).Obeys d Q := by
  split
  · exact hx
  · exact hy

theorem note (e : Event) : (note e).Obeys d fun _ => True := of_ok (fun _ => rfl) fun _ hm => ⟨hm,trivial⟩

theorem raise (e : Error) : (raise e : Eval α).Obeys d Q := of_error (fun _ => rfl) fun _ hm => hm

theorem stop (e : Error) : (stop e : Eval α).Obeys d Q := of_error (fun _ => rfl) fun _ hm => hm

theorem runtime (fault : RuntimeFault) (found : Token) : (runtime fault found : Eval α).Obeys d Q := raise _

theorem exhausted : (exhausted : Eval α).Obeys d Q := of_error (fun _ => rfl) fun _ hm => hm

theorem outcome {r : Except Error α} (h : ∀ a, r = .ok a → Q a) : (outcome r).Obeys d Q := by
  cases r with
  | ok a => exact pure (h a rfl)
  | error e => exact raise e

theorem checked {r : Except InternalFault α} (h : ∀ a, r = .ok a → Q a) : (checked r).Obeys d Q := by
  cases r with
  | ok a => exact pure (h a rfl)
  | error fault => exact raise _

theorem changeHeap {change : Heap → Heap} (h : ∀ k : Heap, k.Within d → (change k).Within d) :
    (changeHeap change).Obeys d fun _ => True :=
  of_ok (fun _ => rfl) fun m hm => ⟨h m.heap hm,trivial⟩

theorem allocate {add : Heap → α × Heap} (h : ∀ k : Heap, k.Within d → (add k).2.Within d) :
    (allocate add).Obeys d fun _ => True :=
  of_ok (fun _ => rfl) fun m hm => ⟨h m.heap hm,trivial⟩

theorem define (name : String) {v : Value} (hv : v.Within d) : (define name v).Obeys d fun _ => True :=
  bind get fun m _ => changeHeap fun _ hk => hk.define m.scope name hv

theorem inScope (hx : x.Obeys d Q) (i : ScopeId) : (inScope i x).Obeys d Q where
  ok {m _ _} hm ha := by
    simp only [Eval.inScope] at ha
    split at ha <;> cases ha
    next hx' =>
      obtain ⟨hwithin,hQ⟩ := hx.ok (m := { m with scope := i }) hm hx'
      exact ⟨hwithin,hQ⟩
  error {m _ _} hm he := by
    simp only [Eval.inScope] at he
    split at he <;> cases he
    next hx' =>
      have hwithin := hx.error (m := { m with scope := i }) hm hx'
      exact hwithin

theorem inNew (hx : x.Obeys d Q) {s : Scope} (hs : s.bindings.Within d) : (inNew s x).Obeys d Q :=
  bind (allocate fun _ hk => hk.addScope hs) fun i _ => hx.inScope i

theorem nested (hx : x.Obeys d Q) : (nested x).Obeys d Q where
  ok {m _ _} hm ha := by
    simp only [Eval.nested] at ha
    split at ha <;> cases ha
    next hx' =>
      obtain ⟨hwithin,hQ⟩ := hx.ok (m := m.deeper) hm hx'
      exact ⟨hwithin,hQ⟩
  error {m _ _} hm he := by
    simp only [Eval.nested] at he
    split at he <;> cases he
    next hx' =>
      have hwithin := hx.error (m := m.deeper) hm hx'
      exact hwithin

theorem print (text : String) : (print text).Obeys d fun _ => True where
  ok {m _ _} hm ha := by
    simp only [Eval.print] at ha
    split at ha <;> cases ha
    exact ⟨hm,trivial⟩
  error {m _ _} hm he := by
    simp only [Eval.print] at he
    split at he <;> cases he
    exact hm

theorem readClock : readClock.Obeys d fun _ => True := of_ok (fun _ => rfl) fun _ hm => ⟨hm,trivial⟩

/-! ### Variables and properties -/

theorem lookUp (id : ExprId) {name : Token} (hname : d.Reads name.lexeme) :
    (lookUp id name).Obeys d (Value.Within d) := by
  refine bind get fun m hm => ?_
  cases m.distances.find? id with
  | some distance => exact checked fun v hv => hm.getAt hname hv
  | none =>
    cases hv : m.heap.get? Heap.globals name.lexeme with
    | some v => exact pure (hm.get? hname hv)
    | none => exact runtime _ name

theorem assign (id : ExprId) (name : Token) {v : Value} (hv : v.Within d) :
    (assign id name v).Obeys d fun _ => True := by
  refine Obeys.bind (Q := fun _ => True) (Obeys.bind get fun m _ => ?_) fun i _ =>
    changeHeap fun _ hk => hk.define i name.lexeme hv
  cases m.distances.find? id with
  | some distance => exact checked fun _ _ => trivial
  | none => cases m.heap.holder? Heap.globals name.lexeme with
    | some scope => exact pure trivial
    | none => exact runtime _ name

theorem bindMethod (f : FunctionId) (i : InstanceId) :
    (Eval.allocate (·.bind f i)).Obeys d fun _ => True := allocate fun _ hk => hk.bind f i

theorem within_function (f : FunctionId) : (Value.function f).Within d := Value.within_of_ne (by simp)

theorem getProperty (object : Value) (name : Token) : (getProperty object name).Obeys d (Value.Within d) := by
  cases object with
  | «instance» i =>
    refine bind heap fun h hh => ?_
    cases hproperty : h.property? i name.lexeme with
    | none => exact runtime _ name
    | some property => cases property with
      | field v => exact pure (hh.property? hproperty)
      | method f => exact bind (bindMethod f i) fun g _ => pure (within_function g)
  | _ => exact runtime _ name

theorem superMethod (id : ExprId) (keyword method : Token) :
    (superMethod id keyword method).Obeys d (Value.Within d) := by
  refine bind get fun m _ => ?_
  cases m.distances.find? id with
  | none => exact raise _
  | some distance =>
    refine Obeys.bind (Q := fun _ => True) (checked fun _ _ => trivial) fun parent _ => ?_
    cases parent with
    | «class» c => cases distance with
      | zero => exact raise _
      | succ inner =>
        refine Obeys.bind (Q := fun _ => True) (checked fun _ _ => trivial) fun receiver _ => ?_
        cases receiver with
        | «instance» i => cases m.heap.findMethod? c method.lexeme with
          | none => exact runtime _ method
          | some f =>
            exact bind (note _) fun _ _ => bind (bindMethod f i) fun g _ => pure (within_function g)
        | _ => exact raise _
    | _ => exact raise _

/-! ### Calls -/

theorem callResult (callee : Function) {flow : Flow} (hflow : flow.Within d) :
    (callResult callee flow).Obeys d (Value.Within d) := by
  refine ite (bind heap fun h hh => checked fun v hv => hh.getAt Dialect.reads_this hv) ?_
  cases flow with
  | normal => exact pure (Value.within_of_ne (by simp))
  | returned v => exact pure hflow

section

variable {execute : List Stmt → Eval Flow}
  (hexecute : ∀ ss, Stmt.ListWithin d ss → (execute ss).Obeys d (Flow.Within d))
include hexecute

theorem apply (f : FunctionId) {vs : List Value} (hvs : ∀ v ∈ vs, v.Within d) :
    (apply execute f vs).Obeys d (Value.Within d) := by
  refine bind heap fun h hh => bind (note _) fun _ _ => ?_
  have hbody := (Stmt.functionWithin_iff d _).mp (hh.function f)
  exact bind (inNew (hexecute _ hbody) (Bindings.Within.ofList _ hvs)) fun flow hflow => callResult _ hflow

theorem construct (c : ClassId) {vs : List Value} (hvs : ∀ v ∈ vs, v.Within d) :
    (construct execute c vs).Obeys d (Value.Within d) := by
  refine bind heap fun _ _ => bind (note _) fun _ _ => bind (allocate fun _ hk => hk.addInstance c) fun i _ => ?_
  refine bind heap fun h _ => ?_
  have hmade : (Value.instance i).Within d := Value.within_of_ne (by simp)
  cases h.findMethod? c "init" with
  | none => exact pure hmade
  | some f => exact bind (bindMethod f i) fun bound _ => bind (apply hexecute bound hvs) fun _ _ => pure hmade

theorem invoke (callee : Value) (paren : Token) {vs : List Value} (hvs : ∀ v ∈ vs, v.Within d) :
    (invoke execute callee paren vs).Obeys d (Value.Within d) := by
  cases callee with
  | native f =>
    exact bind (note _) fun _ _ => bind readClock fun n _ => pure (Value.within_of_ne (by simp))
  | function f => exact apply hexecute f hvs
  | «class» c => exact construct hexecute c hvs
  | _ => exact runtime _ paren

theorem call (callee : Value) (paren : Token) {vs : List Value} (hvs : ∀ v ∈ vs, v.Within d) :
    (call execute callee paren vs).Obeys d (Value.Within d) := by
  refine bind get fun m _ => ?_
  cases m.heap.callable? callee with
  | none => exact runtime _ paren
  | some nameArity =>
    exact ite (runtime _ paren)
      (ite (bind (note _) fun _ _ => stop _) (nested (invoke hexecute callee paren hvs)))

end

/-! ### Declarations, sequences and loops -/

theorem superclassOf {evaluate : Expr → Eval Value} {e : Option Expr} (name : Token)
    (he : ∀ parent, e = some parent → (evaluate parent).Obeys d (Value.Within d)) :
    (superclassOf evaluate name e).Obeys d fun _ => True := by
  cases e with
  | none => exact pure trivial
  | some e =>
    refine bind (he e rfl) fun v _ => ?_
    cases v with
    | «class» c => exact pure trivial
    | _ => cases e <;> exact runtime _ _

theorem addMethods (closure : ScopeId) {ds : List FunctionDecl} (hds : Stmt.FunctionsWithin d ds) :
    (addMethods closure ds).Obeys d fun _ => True := by
  induction ds with
  | nil => exact pure trivial
  | cons f fs ih =>
    exact bind (allocate fun _ hk => hk.addFunction hds.1) fun _ _ => bind (ih hds.2) fun _ _ => pure trivial

theorem methodScope (superclass : Option ClassId) : (methodScope superclass).Obeys d fun _ => True := by
  refine bind get fun m _ => ?_
  cases superclass with
  | none => exact pure trivial
  | some parent =>
    exact allocate fun _ hk => hk.addScope (Bindings.Within.empty.insert "super" (Value.within_of_ne (by simp)))

theorem defineClass (name : Token) (superclass : Option ClassId) {methods : List FunctionDecl}
    (hmethods : Stmt.FunctionsWithin d methods) :
    (defineClass name superclass methods).Obeys d fun _ => True := by
  refine bind (define _ (Value.within_of_ne (by simp))) fun _ _ => bind (methodScope superclass) fun closure _ => ?_
  refine bind (addMethods closure hmethods) fun fs _ => bind (allocate fun _ hk => hk.addClass _) fun c _ => ?_
  refine bind get fun m _ => ?_
  cases m.heap.holder? m.scope name.lexeme with
  | none => exact runtime _ name
  | some holder => exact changeHeap fun _ hk => hk.define holder name.lexeme (Value.within_of_ne (by simp))

theorem evaluateEach {evaluate : Expr → Eval Value} {es : List Expr}
    (h : ∀ e ∈ es, (evaluate e).Obeys d (Value.Within d)) :
    (evaluateEach evaluate es).Obeys d fun vs => ∀ v ∈ vs, v.Within d := by
  induction es with
  | nil => exact pure (by simp)
  | cons e es ih =>
    refine bind (h e List.mem_cons_self) fun v hv => ?_
    exact bind (ih fun e he => h e (List.mem_cons_of_mem _ he)) fun vs hvs =>
      pure (List.forall_mem_cons.mpr ⟨hv,hvs⟩)

theorem executeEach {execute : Stmt → Eval Flow} {ss : List Stmt}
    (h : ∀ s ∈ ss, (execute s).Obeys d (Flow.Within d)) : (executeEach execute ss).Obeys d (Flow.Within d) := by
  induction ss with
  | nil => exact pure trivial
  | cons s ss ih =>
    refine bind (h s List.mem_cons_self) fun flow hflow => ?_
    cases flow with
    | normal => exact ih fun s hs => h s (List.mem_cons_of_mem _ hs)
    | returned v => exact pure hflow

theorem whileLoop {condition : Eval Value} {body : Eval Flow} (hcondition : condition.Obeys d (Value.Within d))
    (hbody : body.Obeys d (Flow.Within d)) (rounds : Nat) :
    (whileLoop condition body rounds).Obeys d (Flow.Within d) := by
  induction rounds with
  | zero => exact exhausted
  | succ rounds ih =>
    refine bind hcondition fun v _ => ite (bind hbody fun flow hflow => ?_) (pure trivial)
    cases flow with
    | normal => exact ih
    | returned v => exact pure hflow

end Eval.Obeys

end Lox

import Lox.Proofs.Run.Call

/-! Programs that do without loops or without the clock, and heaps that such programs leave behind. -/
namespace Lox

/-- What programs may make use of. -/
structure Dialect where
  loops : Prop
  clock : Prop

namespace Dialect

def loopless : Dialect := ⟨False,True⟩

def timeless : Dialect := ⟨True,False⟩

/-- The names that may be read. -/
def Reads (d : Dialect) (name : String) : Prop := d.clock ∨ name ≠ Native.clock.name

variable {d : Dialect}

theorem reads_this : d.Reads "this" := .inr (by decide)

end Dialect

mutual

def Expr.Within (d : Dialect) : Expr → Prop
  | .literal _ | .super .. => True
  | .grouping inner => inner.Within d
  | .unary _ right => right.Within d
  | .binary left _ right | .logical left _ right => left.Within d ∧ right.Within d
  | .ternary condition ifTrue ifFalse => condition.Within d ∧ ifTrue.Within d ∧ ifFalse.Within d
  | .variable _ name | .this _ name => d.Reads name.lexeme
  | .assign _ _ value => value.Within d
  | .call callee _ arguments => callee.Within d ∧ Expr.ListWithin d arguments
  | .get object _ => object.Within d
  | .set object _ value => object.Within d ∧ value.Within d

def Expr.ListWithin (d : Dialect) : List Expr → Prop
  | [] => True
  | e :: es => e.Within d ∧ Expr.ListWithin d es

end

theorem Expr.ListWithin.mem {d : Dialect} {e : Expr} {es : List Expr} (h : ListWithin d es) (he : e ∈ es) :
    e.Within d := by
  induction es with
  | nil => cases he
  | cons e' es ih =>
    rcases List.mem_cons.mp he with rfl | he
    · exact h.1
    · exact ih h.2 he

def Expr.OptionWithin (d : Dialect) : Option Expr → Prop
  | none => True
  | some e => e.Within d

namespace Stmt

mutual

/-- A statement in which nothing is read that may not be read, and in which loops only stand if they may. -/
def Within (d : Dialect) : Stmt → Prop
  | .expression e | .print e => e.Within d
  | .var _ initializer => Expr.OptionWithin d initializer
  | .block body => ListWithin d body
  | .branch condition thenBranch elseBranch =>
    condition.Within d ∧ thenBranch.Within d ∧ OptionWithin d elseBranch
  | .loop condition body => d.loops ∧ condition.Within d ∧ body.Within d
  | .function declaration => FunctionWithin d declaration
  | .return _ value => Expr.OptionWithin d value
  | .class _ superclass methods => Expr.OptionWithin d superclass ∧ FunctionsWithin d methods

def OptionWithin (d : Dialect) : Option Stmt → Prop
  | none => True
  | some s => s.Within d

def ListWithin (d : Dialect) : List Stmt → Prop
  | [] => True
  | s :: ss => s.Within d ∧ ListWithin d ss

def FunctionWithin (d : Dialect) : FunctionDecl → Prop
  | ⟨_,_,body⟩ => ListWithin d body

def FunctionsWithin (d : Dialect) : List FunctionDecl → Prop
  | [] => True
  | f :: fs => FunctionWithin d f ∧ FunctionsWithin d fs

end

theorem ListWithin.mem {d : Dialect} {s : Stmt} {ss : List Stmt} (h : ListWithin d ss) (hs : s ∈ ss) :
    s.Within d := by
  induction ss with
  | nil => cases hs
  | cons s' ss ih =>
    rcases List.mem_cons.mp hs with rfl | hs
    · exact h.1
    · exact ih h.2 hs

theorem functionWithin_iff (d : Dialect) (f : FunctionDecl) : FunctionWithin d f ↔ ListWithin d f.body := by
  cases f
  rfl

end Stmt

/-- The clock is kept from programs that may not use it. -/
def Value.Within (d : Dialect) (v : Value) : Prop := d.clock ∨ ∀ f, v ≠ .native f

def Bindings.Within (d : Dialect) (b : Bindings Value) : Prop :=
  ∀ name v, d.Reads name → b.find? name = some v → v.Within d

/-- Whatever can be got hold of in the heap is within the dialect. -/
structure Heap.Within (d : Dialect) (h : Heap) : Prop where
  scope : ∀ i, (h.getScope i).bindings.Within d
  field : ∀ i name v, (h.getInstance i).fields.find? name = some v → v.Within d
  function : ∀ f, Stmt.FunctionWithin d (h.getFunction f).declaration

variable {d : Dialect} {h : Heap} {v : Value}

theorem Value.within_of_ne (hv : ∀ f, v ≠ .native f) : v.Within d := .inr hv

namespace Bindings.Within

variable {b : Bindings Value}

theorem empty : (∅ : Bindings Value).Within d := by
  intro name v _ hv
  cases hv

theorem insert (hb : b.Within d) (name : String) (hv : v.Within d) : (b.insert name v).Within d := by
  intro other w hother hw
  rw [find?_insert] at hw
  split at hw
  · exact Option.some.inj hw ▸ hv
  · exact hb other w hother hw

theorem ofList (names : List String) {vs : List Value} (hvs : ∀ v ∈ vs, v.Within d) :
    (Bindings.ofList (names.zip vs)).Within d :=
  fun _ v _ hv => hvs v (List.of_mem_zip (mem_of_find?_ofList hv)).2

end Bindings.Within

namespace Heap

/-! ### Reading -/

theorem Within.lookup? (hh : h.Within d) {name : String} (hname : d.Reads name) {fuel : Nat} {i j : ScopeId}
    (hv : h.lookup? name fuel i = some (j,v)) : v.Within d :=
  hh.scope j name v hname (lookup?_binds hv)

theorem Within.get? (hh : h.Within d) {name : String} (hname : d.Reads name) {i : ScopeId}
    (hv : h.get? i name = some v) : v.Within d := by
  obtain ⟨⟨j,w⟩,hw,rfl⟩ := Option.map_eq_some_iff.mp hv
  exact hh.lookup? hname hw

theorem Within.getAt (hh : h.Within d) {name : String} (hname : d.Reads name) {i : ScopeId} {distance : Nat}
    (hv : h.getAt i distance name = .ok v) : v.Within d := by
  simp only [Heap.getAt,lookupAt] at hv
  split at hv
  next => cases hv
  next j _ =>
    split at hv
    next w hw =>
      obtain rfl := Except.ok.inj hv
      exact hh.scope j name _ hname hw
    next => cases hv

theorem Within.property? (hh : h.Within d) {i : InstanceId} {name : String}
    (hv : h.property? i name = some (.field v)) : v.Within d := by
  simp only [Heap.property?] at hv
  split at hv
  next w hw =>
    obtain rfl := Property.field.inj (Option.some.inj hv)
    exact hh.field i name _ hw
  next =>
    obtain ⟨f,-,hf⟩ := Option.map_eq_some_iff.mp hv
    cases hf

/-! ### Writing -/

theorem Within.addScope (hh : h.Within d) {s : Scope} (hs : s.bindings.Within d) :
    (h.addScope s).2.Within d where
  scope i := by
    rw [getScope_addScope]
    split
    · exact hs
    · exact hh.scope i
  field := hh.field
  function := hh.function

theorem Within.addFunction (hh : h.Within d) {f : Function} (hf : Stmt.FunctionWithin d f.declaration) :
    (h.addFunction f).2.Within d where
  scope := hh.scope
  field := hh.field
  function g := by
    rw [getFunction_addFunction]
    split
    · exact hf
    · exact hh.function g

theorem Within.addClass (hh : h.Within d) (k : Class) : (h.addClass k).2.Within d :=
  ⟨hh.scope,hh.field,hh.function⟩

theorem Within.addInstance (hh : h.Within d) (c : ClassId) : (h.addInstance ⟨c,∅⟩).2.Within d where
  scope := hh.scope
  field i name v hv := by
    rw [getInstance_addInstance] at hv
    split at hv
    · cases hv
    · exact hh.field i name v hv
  function := hh.function

theorem Within.define (hh : h.Within d) (i : ScopeId) (name : String) (hv : v.Within d) :
    (h.define i name v).Within d where
  scope j := by
    rw [getScope_define]
    split
    · exact (hh.scope j).insert name hv
    · exact hh.scope j
  field := hh.field
  function := hh.function

theorem Within.setField (hh : h.Within d) (i : InstanceId) (name : String) (hv : v.Within d) :
    (h.setField i name v).Within d where
  scope := hh.scope
  field j other w hw := by
    rcases find?_setField hw with rfl | hw
    · exact hv
    · exact hh.field j other w hw
  function := hh.function

theorem Within.bind (hh : h.Within d) (f : FunctionId) (i : InstanceId) : (h.bind f i).2.Within d := by
  have hscope : ((∅ : Bindings Value).insert "this" (.instance i)).Within d :=
    Bindings.Within.empty.insert "this" (Value.within_of_ne (by simp))
  exact (hh.addScope (s := ⟨_,some (h.getFunction f).closure⟩) hscope).addFunction (hh.function f)

theorem getScope_initial (i : ScopeId) : initial.getScope i = default := by
  obtain ⟨_ | n⟩ := i <;> rfl

/-- At first only the clock is bound. -/
theorem within_initial (d : Dialect) :
    (initial.define globals Native.clock.name (.native .clock)).Within d where
  scope i := by
    intro name v hname hv
    rw [getScope_define,getScope_initial] at hv
    split at hv
    · rw [Bindings.find?_insert] at hv
      split at hv
      next heq => exact .inl (hname.resolve_right (not_not_intro heq))
      next => cases hv
    · cases hv
  field i name v hv := by cases hv
  function f := trivial

end Heap

end Lox

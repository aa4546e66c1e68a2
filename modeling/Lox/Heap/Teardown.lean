import Lox.Heap
import Std.Data.HashSet

/-! The end of a session. Everything that can be reached from some scopes is emptied while it is being
visited, so that no object refers to another one in a circle. -/
namespace Lox

/-- The state of a traversal: two stacks of what is still to be visited, and the scopes that have been emptied,
newest first, which are also those that have been seen. -/
structure Sweep where
  heap : Heap
  values : List Value
  pending : List ScopeId
  seen : Std.HashSet Nat
  cleared : List ScopeId

namespace Sweep

def start (h : Heap) (roots : List ScopeId) : Sweep := ⟨h,[],roots,∅,[]⟩

/-- A function leads to its closure, a class to the closures of its methods and to its superclass, and an
instance, which loses its fields, to their values and to its class. -/
def visitValue (s : Sweep) : Value → Sweep
  | .function f => { s with pending := (s.heap.getFunction f).closure :: s.pending }
  | .class c =>
    let k := s.heap.getClass c
    let closures := k.methods.values.map fun f => (s.heap.getFunction f).closure
    { s with pending := closures ++ s.pending, values := k.superclass.toList.map .class ++ s.values }
  | .instance i =>
    let o := s.heap.getInstance i
    { s with heap := s.heap.clearFields i, values := .class o.ofClass :: (o.fields.values ++ s.values) }
  | _ => s

/-- A scope that has not been seen is emptied. It leads to what it has held and to the scope around it. -/
def visitScope (s : Sweep) (i : ScopeId) : Sweep :=
  if s.seen.contains i.index then s
  else
    let scope := s.heap.getScope i
    { heap := s.heap.clearScope i
      values := scope.bindings.values ++ s.values
      pending := scope.enclosing.toList ++ s.pending
      seen := s.seen.insert i.index
      cleared := i :: s.cleared }

/-- Nothing is left to be visited. -/
def finished (s : Sweep) : Bool := s.values.isEmpty && s.pending.isEmpty

/-- Visit the next value, or the next scope if there is no value. -/
def step (s : Sweep) : Sweep :=
  match s.values,s.pending with
  | v :: values,_ => { s with values := values }.visitValue v
  | [],i :: pending => { s with pending := pending }.visitScope i
  | [],[] => s

def run : Nat → Sweep → Sweep
  | 0, s => s
  | n + 1, s => if s.finished then s else run n s.step

end Sweep

/-- The sum of a number for each entry. -/
def total {α : Type} (f : α → Nat) (l : List α) : Nat := l.foldr (fun a n => f a + n) 0

namespace Heap

/-- The steps that a class takes, with the classes above it. -/
def classSteps (h : Heap) : Nat → ClassId → Nat
  | 0, _ => 0
  | fuel + 1, c =>
    let k := h.getClass c
    1 + k.methods.values.length + total (classSteps h fuel) k.superclass.toList

/-- The steps that a value takes, apart from those of the scopes and fields that it leads to. -/
def valueSteps (h : Heap) : Value → Nat
  | .function _ => 2
  | .class c => h.classSteps (h.classes.size + 1) c
  | .instance i => 1 + h.classSteps (h.classes.size + 1) (h.getInstance i).ofClass
  | _ => 1

def bindingsSteps (h : Heap) (b : Bindings Value) : Nat := total h.valueSteps b.values

/-- The steps for all that the scopes and instances of a heap hold. -/
def steps (h : Heap) : Nat :=
  total (fun s => h.bindingsSteps s.bindings + s.enclosing.toList.length) h.scopes.toList +
    total (fun o => h.bindingsSteps o.fields) h.instances.toList

/-- The traversal of everything that can be reached from the roots. -/
def swept (h : Heap) (roots : List ScopeId) : Sweep :=
  (Sweep.start h roots).run (roots.length + h.steps)

/-- The end of a session: every scope that can be reached from the roots is emptied and cut off, and every
instance loses its fields. Gives the scopes and the heap that is left. -/
def tearDown (h : Heap) (roots : List ScopeId) : List ScopeId × Heap :=
  let s := h.swept roots
  (s.cleared,s.heap)

end Heap
end Lox

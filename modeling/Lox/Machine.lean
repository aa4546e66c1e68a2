import Lox.Heap
import Lox.Output
import Lox.Log
import Std.Data.TreeMap

/-! The state of a running program and the elementary actions on it. -/
namespace Lox

/-- For each variable occurrence that refers to a local name, how many scopes to leave. -/
structure Distances where
  table : Std.TreeMap UInt32 Nat

namespace Distances

def empty : Distances := ⟨∅⟩

def find? (d : Distances) (id : ExprId) : Option Nat := d.table[id.index]?

def insert (d : Distances) (id : ExprId) (distance : Nat) : Distances :=
  ⟨d.table.insert id.index distance⟩

/-- Enter the occurrences that have a distance, later ones in place of earlier ones of the same
identity. -/
def insertAll (d : Distances) (occurrences : List (ExprId × String × Option Nat)) : Distances :=
  occurrences.foldl (fun d (id,_,distance) => match distance with
    | none => d
    | some n => d.insert id n) d

end Distances

/-- The time in milliseconds at each reading, and how many readings were taken. -/
structure Clock where
  reading : Nat → Nat
  taken : Nat

namespace Clock

/-- A clock that starts at a time and moves on by a millisecond every thousand readings, so that a
program which waits for a later time comes to an end. -/
def startingAt (time : Nat) : Clock := ⟨fun k => time + k / 1000,0⟩

end Clock

structure Machine where
  heap : Heap
  /-- The scope that the next statement runs in. -/
  scope : ScopeId
  /-- How many calls are active. -/
  depth : Nat
  distances : Distances
  output : Output
  clock : Clock
  /-- Everything reported so far, newest first. -/
  log : List Event

/-- Why a run stopped early: an error of the program, or a budget of steps that was too small to
see how the program goes on. -/
inductive Halt
  | error (e : Error)
  | exhausted
deriving DecidableEq

abbrev Eval := EStateM Halt Machine

namespace Machine

/-- The deepest nesting of calls. -/
def maxDepth : Nat := 2048

def note (m : Machine) (e : Event) : Machine := { m with log := e :: m.log }

/-- A machine before its first program: the only global name is the native function. -/
def initial (output : Output) (clock : Clock) : Machine where
  heap := Heap.initial.define Heap.globals Native.clock.name (.native .clock)
  scope := Heap.globals
  depth := 0
  distances := .empty
  output := output
  clock := clock
  log := [.nativeDefined Native.clock.name,.initializing]

end Machine

namespace Eval

def note (e : Event) : Eval Unit := modify (·.note e)

/-- Stop with an error, which is reported when it is made. -/
def raise {α : Type} (e : Error) : Eval α := fun m => .error (.error e) (m.note (.errorCreated e))

/-- Stop with an error that is not reported when it is made. -/
def stop {α : Type} (e : Error) : Eval α := throw (.error e)

def runtime {α : Type} (fault : RuntimeFault) (found : Token) : Eval α :=
  raise (.runtime fault found.line)

def exhausted {α : Type} : Eval α := throw .exhausted

/-- The outcome of an operation that does not look at the machine. -/
def outcome {α : Type} : Except Error α → Eval α
  | .ok a => pure a
  | .error e => raise e

/-- The outcome of an operation that may find scopes and syntax tree in disagreement. -/
def checked {α : Type} : Except InternalFault α → Eval α
  | .ok a => pure a
  | .error fault => raise (.internal fault)

/-- Read the heap. -/
def heap : Eval Heap := return (← get).heap

def changeHeap (f : Heap → Heap) : Eval Unit := modify fun m => { m with heap := f m.heap }

/-- Change the heap by adding an object to it. -/
def allocate {α : Type} (add : Heap → α × Heap) : Eval α := fun m =>
  let (a,h) := add m.heap
  .ok a { m with heap := h }

/-- Bind a name in the current scope. -/
def define (name : String) (value : Value) : Eval Unit := do
  let scope := (← get).scope
  changeHeap (·.define scope name value)

/-- Run in another scope and come back to the current one however that ends. -/
def inScope {α : Type} (scope : ScopeId) (body : Eval α) : Eval α := fun m =>
  match body { m with scope := scope } with
  | .ok a after => .ok a { after with scope := m.scope }
  | .error halt after => .error halt { after with scope := m.scope }

/-- Run in a new scope. -/
def inNew {α : Type} (s : Scope) (body : Eval α) : Eval α := do
  inScope (← allocate (·.addScope s)) body

/-- Run as one more active call. -/
def nested {α : Type} (body : Eval α) : Eval α := fun m =>
  match body { m with depth := m.depth + 1 } with
  | .ok a after => .ok a { after with depth := after.depth - 1 }
  | .error halt after => .error halt { after with depth := after.depth - 1 }

def print (text : String) : Eval Unit := fun m =>
  let (outcome,output) := m.output.write (text ++ "\n")
  let m := { m with output := output }
  match outcome with
  | .ok () => .ok () m
  | .error fault => .error (.error (.output fault)) m

/-- The next reading of the clock. -/
def readClock : Eval Nat := fun m =>
  .ok (m.clock.reading m.clock.taken) { m with clock := { m.clock with taken := m.clock.taken + 1 } }

end Eval
end Lox

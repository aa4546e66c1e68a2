import Lox.Binding
import Lox.Evaluation
import Lox.Heap.Teardown
import Lox.Syntax.Parse
import Lox.Token.Scan

/-! A session runs one program after another. Global names, objects and the numbering of expressions
carry over from each to the next. -/
namespace Lox

/-- A source text after scanning and parsing. -/
structure Reading where
  scan : Scan
  parsed : Parsed

namespace Reading

def ofSource (source : String) (ids : ExprIds) : Reading :=
  let s := Lox.scan source
  ⟨s,parse s.tokens ids⟩

/-- Errors in the order in which they were found. -/
def errors (r : Reading) : List Error := r.scan.errors ++ r.parsed.errors

def events (r : Reading) : List Event := r.scan.events ++ r.parsed.events

/-- The program, if the text has no error. -/
def program (r : Reading) : Except (List Error) (List Stmt) :=
  if r.errors.isEmpty then .ok r.parsed.statements else .error r.errors

/-- Syntax errors are found after all lexical errors, so their joint report is put in the order of
lines. -/
def report (r : Reading) : List Error :=
  if r.parsed.errors.isEmpty then r.scan.errors
  else r.errors.mergeSort fun a b => decide (a.line?.getD 0 ≤ b.line?.getD 0)

end Reading

/-- How a run ended. -/
inductive Status
  | success
  | compileError (errors : List Error)
  | runtimeError (e : Error)
  | exhausted

namespace Status

def name : Status → String
  | success => "Success"
  | compileError _ => "CompileError"
  | runtimeError _ => "RuntimeError"
  | exhausted => "Exhausted"

/-- The code a process ends with: 65 for faulty input, 70 for a failed run. -/
def exitCode : Status → Nat
  | success => 0
  | compileError _ => 65
  | runtimeError _ | exhausted => 70

def isSuccess : Status → Bool
  | success => true
  | _ => false

def errors : Status → List Error
  | compileError errors => errors
  | runtimeError e => [e]
  | success | exhausted => []

end Status

namespace Machine

/-- Append events, given oldest first, to the log. -/
def noteAll (m : Machine) (events : List Event) : Machine :=
  { m with log := events.reverse ++ m.log }

/-- Statements at top level, each run whatever flow the one before it ended with. -/
def executeProgram (budget : Nat) : List Stmt → Eval Unit
  | [] => return ()
  | s :: ss => do
    let _ ← execute budget s
    executeProgram budget ss

/-- What is left to do after the statements of a program: go back to the top level, flush, and
report. A failed flush takes the place of the outcome. -/
def finish (outcome : Except Halt Unit) (m : Machine) : Except Halt Unit × Machine :=
  let m := { m with scope := Heap.globals, depth := 0 }
  match m.output.flush with
  | .error fault => (.error (.error (.output fault)),m)
  | .ok () => match outcome with
    | .ok () => (outcome,m.note .completed)
    | .error (.error e) => (outcome,m.note (.aborted e))
    | .error .exhausted => (outcome,m)

/-- Run a program whose names have been resolved. -/
def interpret (budget : Nat) (program : List Stmt) (m : Machine) : Except Halt Unit × Machine :=
  match executeProgram budget program (m.note (.interpreting program.length)) with
  | .ok () m => finish (.ok ()) m
  | .error halt m => finish (.error halt) m

/-- Resolve the names of a program and enter the distances, also when there are errors. -/
def resolve (program : List Stmt) (m : Machine) : List Error × Machine :=
  let r := Lox.resolve program
  (r.errors,{ m with distances := m.distances.insertAll r.occurrences }.noteAll r.events)

/-- Empty everything that can be reached from the global and the current scope, and count the
scopes. -/
def tearDown (m : Machine) : Nat × Machine :=
  let (cleared,h) := m.heap.tearDown [m.scope,Heap.globals]
  (cleared.length,{ m with heap := h }.note (.tornDown cleared.length))

end Machine

structure Session where
  machine : Machine
  ids : ExprIds

namespace Session

/-- Enough steps for any run that can be waited for. -/
def budget : Nat := Nat.pow 2 62

def new (output : Output) (clock : Clock) : Session := ⟨.initial output clock,⟨0⟩⟩

/-- Scan and parse a text with expression identities of this session. -/
def read (s : Session) (source : String) : Reading × Session :=
  let r := Reading.ofSource source s.ids
  (r,⟨s.machine.noteAll r.events,r.parsed.ids⟩)

def parse (s : Session) (source : String) : Except (List Error) (List Stmt) × Session :=
  let (r,s) := s.read source
  match r.program with
  | .ok program => (.ok program,s)
  | .error _ => (.error r.report,s)

/-- Resolve and run a program. Nothing is executed when a name breaks a rule. -/
def execute (budget : Nat) (program : List Stmt) (s : Session) : Status × Session :=
  let (errors,m) := s.machine.resolve program
  if errors.isEmpty then
    let (outcome,m) := m.interpret budget program
    let status := match outcome with
      | .ok () => .success
      | .error (.error e) => .runtimeError e
      | .error .exhausted => .exhausted
    (status,{ s with machine := m })
  else (.compileError errors,{ s with machine := m })

/-- Scan, parse, resolve and run a text. -/
def run (budget : Nat) (source : String) (s : Session) : Status × Session :=
  let s := { s with machine := s.machine.note (.running source.utf8ByteSize) }
  match s.parse source with
  | (.ok program,s) => s.execute budget program
  | (.error errors,s) => (.compileError errors,s)

/-- The events of a session, oldest first. -/
def log (s : Session) : List Event := s.machine.log.reverse

end Session

/-- What a text gives that is run or, if it is a single expression, evaluated. -/
inductive Answer
  | rejected (errors : List Error)
  | value (v : Value)
  | done
  | failed (halt : Halt)

namespace Session

/-- Run a text. With `asExpression`, a text that is one expression statement is evaluated instead,
without the return to the top level that ends a run. -/
def answer (budget : Nat) (asExpression : Bool) (source : String) (s : Session) :
    Answer × Session :=
  let (r,s) := s.read source
  match r.program with
  | .error errors => (.rejected errors,s)
  | .ok program =>
    let (errors,m) := s.machine.resolve program
    if !errors.isEmpty then (.rejected errors,{ s with machine := m })
    else match asExpression,program with
      | true,[.expression e] => match evaluate budget e m with
        | .ok v m => (.value v,{ s with machine := m })
        | .error halt m => (.failed halt,{ s with machine := m })
      | _,_ => match m.interpret budget program with
        | (.ok (),m) => (.done,{ s with machine := m })
        | (.error halt,m) => (.failed halt,{ s with machine := m })

end Session
end Lox

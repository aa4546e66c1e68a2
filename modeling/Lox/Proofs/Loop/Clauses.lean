import Lox.Binding
import Lox.Proofs.Alike.Shape
import Lox.Proofs.Run.Budget
import Lox.Syntax.Parse

/-! `for` loops by their clauses: what they do, and which scopes their names are looked for in. This does not
mention the blocks and the `while` loop that the parser makes of them. -/
namespace Lox

/-- The clauses of a `for` statement and its body. -/
structure ForClauses where
  initializer : Option Stmt
  condition : Option Expr
  increment : Option Expr
  body : Stmt

/-- Budgets for the initializer, for the rounds and their conditions, for the body and for the increment. -/
structure ForClauses.Budgets where
  initializer : Nat
  rounds : Nat
  body : Nat
  increment : Nat

namespace Eval

/-- Go round while a condition holds. The increment follows the body unless that returns. -/
def rounds (condition : Eval Value) (body : Eval Flow) (increment : Eval Unit) : Nat → Eval Flow
  | 0 => exhausted
  | n + 1 => do
    if (← condition).isTruthy then
      match ← body with
      | .normal =>
        increment
        rounds condition body increment n
      | .returned value => return .returned value
    else return .normal

/-- A second computation, unless the first one returns. -/
def andThen (first second : Eval Flow) : Eval Flow := do
  match ← first with
  | .normal => second
  | .returned value => return .returned value

end Eval

open Eval

namespace ForClauses

/-- The statement that the parser makes of the clauses. -/
def desugared (c : ForClauses) : Stmt := Parser.forLoop c.initializer c.condition c.increment c.body

/-- The condition, which is true if there is none. -/
def test (c : ForClauses) (n : Nat) : Eval Value :=
  match c.condition with
  | none => return .boolean true
  | some e => evaluate n e

/-- The increment, if there is one. -/
def advance (c : ForClauses) (n : Nat) : Eval Unit :=
  match c.increment with
  | none => return ()
  | some e => do
    let _ ← evaluate n e

def loop (c : ForClauses) (b : Budgets) : Eval Flow :=
  rounds (c.test b.rounds) (execute b.body c.body) (c.advance b.increment) b.rounds

/-- The initializer runs once, in a scope of its own, and the rounds share that scope. -/
def runWith (c : ForClauses) (b : Budgets) : Eval Flow :=
  match c.initializer with
  | none => c.loop b
  | some s => do inNew ⟨∅,some (← get).scope⟩ (andThen (execute b.initializer s) (c.loop b))

def run (c : ForClauses) (n : Nat) : Eval Flow := c.runWith ⟨n,n,n,n⟩

/-- The names of condition, body and increment, all looked for in the current scope. The increment does not see
what the body declares. -/
def resolvedRounds (c : ForClauses) (around : Surroundings) (s : Scoping) : Scoping :=
  let behind := Scoping.stmt around c.body (Scoping.optional around c.condition s)
  Scoping.optional around c.increment ⟨s.scopes,behind.findings⟩

/-- The scope of an initializer is also that of condition, body and increment. -/
def resolved (c : ForClauses) (around : Surroundings) (s : Scoping) : Scoping :=
  match c.initializer with
  | none => c.resolvedRounds around s
  | some b => (c.resolvedRounds around (Scoping.stmt around b s.enter)).leave

/-- The same clauses up to the identities in them. -/
structure Copy (c c' : ForClauses) : Prop where
  initializer : Stmt.OptionAlike .shape c.initializer c'.initializer
  condition : Expr.OptionAlike .shape c.condition c'.condition
  increment : Expr.OptionAlike .shape c.increment c'.increment
  body : c.body.Alike .shape c'.body

/-! ### Budgets -/

/-- No budget is smaller. -/
structure Budgets.Le (b b' : Budgets) : Prop where
  initializer : b.initializer ≤ b'.initializer
  rounds : b.rounds ≤ b'.rounds
  body : b.body ≤ b'.body
  increment : b.increment ≤ b'.increment

variable (c : ForClauses) {b b' : Budgets}

theorem test_continues {n n' : Nat} (hn : n ≤ n') : Continues (c.test n) (c.test n') := by
  simp only [test]
  split
  · exact .refl _
  · exact (continuing hn).expr _

theorem advance_continues {n n' : Nat} (hn : n ≤ n') : Continues (c.advance n) (c.advance n') := by
  simp only [advance]
  split
  · exact .refl _
  · exact ((continuing hn).expr _).bind fun _ => .refl _

theorem rounds_continues {x x' : Eval Value} {y y' : Eval Flow} {z z' : Eval Unit} (hx : Continues x x')
    (hy : Continues y y') (hz : Continues z z') {n n' : Nat} (hn : n ≤ n') :
    Continues (rounds x y z n) (rounds x' y' z' n') := by
  induction n generalizing n' with
  | zero => exact .exhausted
  | succ n ih =>
    obtain ⟨n',rfl⟩ := Nat.exists_eq_add_of_lt hn
    refine hx.bind fun v => .ite (hy.bind fun flow => ?_) (.refl _)
    cases flow with
    | normal => exact hz.bind fun _ => ih (Nat.le_add_right n n')
    | returned v => exact .refl _

theorem loop_continues (hb : b.Le b') : Continues (c.loop b) (c.loop b') :=
  rounds_continues (c.test_continues hb.rounds) ((continuing hb.body).stmt _) (c.advance_continues hb.increment)
    hb.rounds

/-- With larger budgets, a loop does what it does with smaller ones that are enough. -/
theorem runWith_continues (hb : b.Le b') : Continues (c.runWith b) (c.runWith b') := by
  simp only [runWith]
  split
  · exact c.loop_continues hb
  · refine .behind fun m => .inNew (((continuing hb.initializer).stmt _).bind fun flow => ?_) _
    cases flow with
    | normal => exact c.loop_continues hb
    | returned v => exact .refl _

end ForClauses
end Lox

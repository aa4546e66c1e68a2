import Lox.Proofs.Dialect.Evaluation

/-! All that a run of a program does keeps to the dialect of the program. -/
namespace Lox

open Eval

variable {d : Dialect} {r : Run} {w w' : Work} {m m' : Machine}

/-- What is to be done is within the dialect. -/
def Work.Within (d : Dialect) : Work → Prop
  | .program _ ss | .stmts _ ss => Stmt.ListWithin d ss
  | .stmt _ s => s.Within d
  | .loop _ condition body _ => condition.Within d ∧ body.Within d
  | .expr _ e => e.Within d
  | .exprs _ es => Expr.ListWithin d es
  | .invoke _ callee _ arguments => callee.Within d ∧ ∀ v ∈ arguments, v.Within d
  | .apply _ _ arguments => ∀ v ∈ arguments, v.Within d
  | .bind _ _ => True
  | .classDefinition _ _ methods => Stmt.FunctionsWithin d methods

/-- Work starts other work of its dialect, and on a heap within it. -/
theorem Starts.within (hs : Starts w m w' m') (hw : w.Within d) (hm : m.heap.Within d) :
    w'.Within d ∧ m'.heap.Within d := by
  have hexpr {n : Nat} {e : Expr} {v : Value} {m m₁ : Machine} (he : e.Within d) (hm : m.heap.Within d)
      (hv : evaluate n e m = .ok v m₁) : m₁.heap.Within d := (((obeying d n).expr e he).ok hm hv).1
  have hstmt {n : Nat} {s : Stmt} {flow : Flow} {m m₁ : Machine} (hs : s.Within d) (hm : m.heap.Within d)
      (hflow : execute n s m = .ok flow m₁) : m₁.heap.Within d := (((obeying d n).stmt s hs).ok hm hflow).1
  cases hs with
  | grouping | unary | assign_value | get_object | expression | print | var | returning => exact ⟨hw,hm⟩
  | binary_left | logical_left | ternary_condition | callee | set_object | exprs_head | branch_condition
  | superclass | loop_condition | stmts_head | program_head => exact ⟨hw.1,hm⟩
  | binary_right ha | logical_right ha => exact ⟨hw.2,hexpr hw.1 hm ha⟩
  | ternary_true hc => exact ⟨hw.2.1,hexpr hw.1 hm hc⟩
  | ternary_false hc => exact ⟨hw.2.2,hexpr hw.1 hm hc⟩
  | arguments he => exact ⟨hw.2,hexpr hw.1 hm he⟩
  | @invoke n e paren es m f m₁ vs m₂ name he hes hf hdepth =>
    obtain ⟨hm₁,hcallee⟩ := ((obeying d n).expr e hw.1).ok hm he
    obtain ⟨hm₂,hvs⟩ := ((obeying d n).exprs hw.2).ok hm₁ hes
    exact ⟨⟨hcallee,hvs⟩,hm₂⟩
  | @get_method n e _ _ _ _ _ he => exact ⟨trivial,hexpr (e := e) hw hm he⟩
  | set_value he => exact ⟨hw.2,hexpr hw.1 hm he⟩
  | super_method => exact ⟨trivial,hm⟩
  | exprs_tail he => exact ⟨hw.2,hexpr hw.1 hm he⟩
  | block => exact ⟨hw,hm.addScope .empty⟩
  | branch_then hc => exact ⟨hw.2.1,hexpr hw.1 hm hc⟩
  | branch_else hc => exact ⟨hw.2.2,hexpr hw.1 hm hc⟩
  | loop => exact ⟨hw.2,hm⟩
  | class_alone => exact ⟨hw.2,hm⟩
  | @class_derived _ name _ _ _ _ _ he =>
    exact ⟨hw.2,hexpr (m := m.note (.classDefined name.lexeme)) hw.1 hm he⟩
  | loop_body hc => exact ⟨hw.2,hexpr hw.1 hm hc⟩
  | loop_again hc _ hs => exact ⟨hw,hstmt hw.2 (hexpr hw.1 hm hc) hs⟩
  | stmts_tail hs => exact ⟨hw.2,hstmt hw.1 hm hs⟩
  | program_tail hs => exact ⟨hw.2,hstmt hw.1 hm hs⟩
  | function => exact ⟨hw.2,hm⟩
  | initializer => exact ⟨trivial,hm.addInstance _⟩
  | construction => exact ⟨hw.2,(hm.addInstance _).bind _ _⟩
  | @body n f vs m =>
    exact ⟨(Stmt.functionWithin_iff d _).mp (hm.function f),hm.addScope (.ofList _ hw)⟩

theorem Visits.within (hv : Visits r w m) (hr : Stmt.ListWithin d r.program) (hm : r.machine.heap.Within d) :
    w.Within d ∧ m.heap.Within d := by
  induction hv with
  | start => exact ⟨hr,hm⟩
  | step _ hs ih => exact hs.within ih.1 ih.2

/-- A program that does not read the name of the clock does not call it. -/
theorem Run.timeless (hr : Stmt.ListWithin .timeless r.program) (hm : r.machine.heap.Within .timeless) :
    r.Timeless := by
  intro n paren vs m hv
  obtain ⟨⟨hcallee,-⟩,-⟩ := hv.within hr hm
  exact (hcallee.resolve_left id .clock rfl).elim

end Lox

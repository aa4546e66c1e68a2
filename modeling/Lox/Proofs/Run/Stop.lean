import Lox.Proofs.Run.Agreement

/-! Work that stops early stops all the work that it is a part of, in the same way. -/
namespace Lox

open Eval

def Eval.Stops {α : Type} (x : Eval α) (m : Machine) (halt : Halt) : Prop := ∃ m', x m = .error halt m'

namespace Eval.Stops

variable {α β : Type} {x : Eval α} {f : α → Eval β} {m m₁ : Machine} {a : α} {halt : Halt}

theorem bind (h : x.Stops m halt) : (x >>= f).Stops m halt := by
  obtain ⟨m',hx⟩ := h
  exact ⟨m',by simp only [Bind.bind,EStateM.bind,hx]⟩

theorem behind (hx : x m = .ok a m₁) (h : (f a).Stops m₁ halt) : (x >>= f).Stops m halt := by
  obtain ⟨m',hf⟩ := h
  exact ⟨m',by simp only [Bind.bind,EStateM.bind,hx,hf]⟩

theorem of_if {c : Prop} [Decidable c] {y : Eval α} (hc : c) (h : x.Stops m halt) :
    (if c then x else y).Stops m halt := by
  rwa [if_pos hc]

theorem of_else {c : Prop} [Decidable c] {y : Eval α} (hc : ¬c) (h : y.Stops m halt) :
    (if c then x else y).Stops m halt := by
  rwa [if_neg hc]

theorem after {y : Eval α} (hx : x m = y m₁) (h : y.Stops m₁ halt) : x.Stops m halt := by
  obtain ⟨m',hy⟩ := h
  exact ⟨m',hx.trans hy⟩

theorem inScope {i : ScopeId} (h : x.Stops { m with scope := i } halt) : (inScope i x).Stops m halt := by
  obtain ⟨m',hx⟩ := h
  exact ⟨{ m' with scope := m.scope },by simp only [Eval.inScope,hx]⟩

theorem inNew {s : Scope} (h : x.Stops (m.inNew s) halt) : (inNew s x).Stops m halt := by
  have hadded : Eval.allocate (·.addScope s) m =
      .ok (m.heap.addScope s).1 { m with heap := (m.heap.addScope s).2 } := rfl
  exact behind hadded (inScope h)

theorem nested (h : x.Stops m.deeper halt) : (nested x).Stops m halt := by
  obtain ⟨m',hx⟩ := h
  rw [Machine.deeper] at hx
  exact ⟨{ m' with depth := m'.depth - 1 },by simp only [Eval.nested,hx]⟩

end Eval.Stops

/-- How a piece of work stops. -/
def Work.Stops (w : Work) (m : Machine) (halt : Halt) : Prop :=
  match w with
  | .program n ss => (Machine.executeProgram n ss).Stops m halt
  | .stmts n ss => (executeEach (execute n) ss).Stops m halt
  | .stmt n s => (execute n s).Stops m halt
  | .loop n condition body k => (whileLoop (evaluate n condition) (execute n body) k).Stops m halt
  | .expr n e => (evaluate n e).Stops m halt
  | .exprs n es => (evaluateEach (evaluate n) es).Stops m halt
  | .invoke n f paren vs => (Eval.invoke (executeEach (execute n)) f paren vs).Stops m halt
  | .apply n f vs => (Eval.apply (executeEach (execute n)) f vs).Stops m halt
  | .bind _ _ => False
  | .classDefinition name parent methods => (Eval.defineClass name parent methods).Stops m halt

variable {r : Run} {w w' : Work} {m m' m₁ m₂ : Machine} {n : Nat} {halt : Halt}

/-- Of work that stops, this is how it does so. -/
theorem Work.stops_iff : w.Stops m halt ↔ w.halt? m = some halt := by
  cases w with
  | bind f i => simp [Work.Stops,Work.halt?]
  | _ =>
    simp only [Work.Stops,Work.halt?,Eval.Stops]
    split
    next heq => simp [heq]
    next heq => simp [heq]

theorem Starts.stops (hs : Starts w m w' m') (h : w'.Stops m' halt) : w.Stops m halt := by
  cases hs with
  | get_method | super_method | initializer => exact h.elim
  | grouping | loop | function => exact h
  | unary | binary_left | logical_left | ternary_condition | assign_value | callee | get_object | set_object
  | expression | print | var | branch_condition | returning | exprs_head | stmts_head | program_head
  | loop_condition => exact Stops.bind h
  | binary_right ha => exact Stops.behind ha (Stops.bind h)
  | logical_right ha hv => exact Stops.behind ha (Stops.of_else (by simp [hv]) h)
  | ternary_true hc hv => exact Stops.behind hc (Stops.of_if hv h)
  | ternary_false hc hv => exact Stops.behind hc (Stops.of_else (by simp [hv]) h)
  | arguments he => exact Stops.behind he (Stops.bind h)
  | @invoke _ _ _ _ _ f m₁ vs m₂ name he hes hf hdepth =>
    refine Stops.behind he (Stops.behind hes (Stops.after (call_eq _ f _ vs m₂) ?_))
    simp only [hf]
    exact Stops.of_else (by simp) (Stops.of_else (by omega) (Stops.nested h))
  | set_value he => exact Stops.behind he (Stops.bind h)
  | exprs_tail he => exact Stops.behind he (Stops.bind h)
  | block => exact Stops.behind rfl (Stops.inNew h)
  | branch_then hc hv => exact Stops.behind hc (Stops.of_if hv h)
  | branch_else hc hv => exact Stops.behind hc (Stops.of_else (by simp [hv]) h)
  | superclass => exact Stops.behind rfl (Stops.bind (Stops.bind h))
  | class_alone => exact Stops.behind rfl (Stops.behind rfl (Stops.bind h))
  | class_derived he => exact Stops.behind rfl (Stops.behind (superclassOf_class _ he) (Stops.bind h))
  | loop_body hc hv => exact Stops.behind hc (Stops.of_if hv (Stops.bind h))
  | loop_again hc hv hs => exact Stops.behind hc (Stops.of_if hv (Stops.behind hs h))
  | stmts_tail hs => exact Stops.behind hs h
  | program_tail hs => exact Stops.behind hs h
  | construction hf => exact Stops.after (construct_some _ _ hf) (Stops.bind h)
  | body => exact Stops.behind rfl (Stops.behind rfl (Stops.bind (Stops.inNew h)))

/-- A call that would nest too deeply stops. -/
theorem Work.stops_of_depth {callee : Expr} {paren : Token} {es : List Expr} {f : Value} {vs : List Value}
    {name : String} (he : evaluate n callee m = .ok f m₁) (hes : evaluateEach (evaluate n) es m₁ = .ok vs m₂)
    (hf : m₂.heap.callable? f = some (name,vs.length)) (hdepth : Machine.maxDepth ≤ m₂.depth) :
    (Work.expr (n + 1) (.call callee paren es)).Stops m (.error (.stackOverflow paren.line)) := by
  refine Stops.behind he (Stops.behind hes (Stops.after (call_eq _ f paren vs m₂) ?_))
  simp only [hf]
  exact Stops.of_else (by simp) (Stops.of_if hdepth (Stops.behind rfl ⟨_,rfl⟩))

/-- Whatever stops in the course of a run, the whole run stops. -/
theorem Visits.stops (hv : Visits r w m) (h : w.Stops m halt) :
    (Work.program r.budget r.program).Stops r.machine halt := by
  induction hv with
  | start => exact h
  | step _ hs ih => exact ih (hs.stops h)

end Lox

import Lox.Proofs.Run.Expression
import Lox.Proofs.Run.Moment

/-! What calls come to: from the end of the body to the value of the call expression. -/
namespace Lox

open Eval

/-- The value of a call whose body has ended so, unless it is that of an initializer. -/
def Flow.result : Flow → Value
  | .normal => .nil
  | .returned v => v

/-- Between the two machines the function has been called: its body has been executed once, in a new scope. -/
def Machine.Calls (n : Nat) (f : FunctionId) (vs : List Value) (m m' : Machine) : Prop :=
  ∃ flow m₁, executeEach (execute n) (m.heap.getFunction f).declaration.body (m.calling f vs) = .ok flow m₁ ∧
    m' = { m₁ with scope := m.scope }

variable {α : Type} {x : Eval α} {a : α} {i : ScopeId} {n : Nat} {f : FunctionId} {callee : Function} {vs : List Value}
  {flow : Flow} {v : Value} {halt : Halt} {e : Expr} {es : List Expr} {paren : Token} {m m₁ m₂ m' : Machine}

theorem inScope_ok (hx : x { m with scope := i } = .ok a m₁) : inScope i x m = .ok a { m₁ with scope := m.scope } := by
  simp only [inScope,hx]

theorem inScope_error (hx : x { m with scope := i } = .error halt m₁) :
    inScope i x m = .error halt { m₁ with scope := m.scope } := by
  simp only [inScope,hx]

/-! ### The body of a function -/

theorem callResult_plain (hplain : callee.isInitializer = false) : callResult callee flow m = .ok flow.result m := by
  simp only [callResult,hplain]
  cases flow <;> rfl

theorem callResult_initializer (hinit : callee.isInitializer = true) :
    callResult callee flow m = Eval.checked (m.heap.getAt callee.closure 0 "this") m := by
  simp only [callResult,hinit]
  rfl

theorem callResult_receiver (hinit : callee.isInitializer = true)
    (hthis : (m.heap.getScope callee.closure).bindings.find? "this" = some v) : callResult callee flow m = .ok v m := by
  have hget : m.heap.getAt callee.closure 0 "this" = .ok v := by
    simp [Heap.getAt,Heap.lookupAt,Heap.ancestor,Heap.outward,hthis,Except.map]
  rw [callResult_initializer hinit,hget]
  rfl

theorem callResult_ok (h : callResult callee flow m = .ok v m') : m' = m := by
  cases hinit : callee.isInitializer with
  | false =>
    rw [callResult_plain hinit] at h
    exact (EStateM.Result.ok.inj h).2.symm
  | true =>
    rw [callResult_initializer hinit] at h
    cases hthis : m.heap.getAt callee.closure 0 "this" with
    | ok u =>
      rw [hthis] at h
      exact (EStateM.Result.ok.inj h).2.symm
    | error fault =>
      rw [hthis] at h
      cases h

theorem apply_eq (n : Nat) (f : FunctionId) (vs : List Value) (m : Machine) :
    Eval.apply (executeEach (execute n)) f vs m =
      (inScope (m.calling f vs).scope (executeEach (execute n) (m.heap.getFunction f).declaration.body) >>=
        callResult (m.heap.getFunction f))
      { m.note (.functionCalled (m.heap.getFunction f).name) with heap := (m.calling f vs).heap } :=
  rfl

/-- The body is executed once, in a new scope. -/
theorem apply_ok (hbody : executeEach (execute n) (m.heap.getFunction f).declaration.body (m.calling f vs) = .ok flow m₁) :
    Eval.apply (executeEach (execute n)) f vs m =
      callResult (m.heap.getFunction f) flow { m₁ with scope := m.scope } := by
  rw [apply_eq]
  exact bind_of_ok (inScope_ok hbody) _

theorem apply_error
    (hbody : executeEach (execute n) (m.heap.getFunction f).declaration.body (m.calling f vs) = .error halt m₁) :
    Eval.apply (executeEach (execute n)) f vs m = .error halt { m₁ with scope := m.scope } := by
  rw [apply_eq]
  exact bind_of_error (inScope_error hbody) _

/-- A call that succeeds has had its body executed to the end. -/
theorem of_apply_ok (h : Eval.apply (executeEach (execute n)) f vs m = .ok v m') : m.Calls n f vs m' := by
  cases hbody : executeEach (execute n) (m.heap.getFunction f).declaration.body (m.calling f vs) with
  | ok flow m₁ =>
    rw [apply_ok hbody] at h
    exact ⟨flow,m₁,hbody,callResult_ok h⟩
  | error halt m₁ => cases h.symm.trans (apply_error hbody)

/-! ### The call expression -/

theorem evaluate_call (paren : Token) (he : evaluate n e m = .ok v m₁)
    (hes : evaluateEach (evaluate n) es m₁ = .ok vs m₂) :
    evaluate (n + 1) (.call e paren es) m = Eval.call (executeEach (execute n)) v paren vs m₂ := by
  rw [evaluate,bind_of_ok he,bind_of_ok hes]

theorem call_arity {name : String} {arity : Nat} (execute : List Stmt → Eval Flow) (hv : m.heap.callable? v = some (name,arity))
    (hvs : vs.length ≠ arity) : Eval.call execute v paren vs m = Eval.runtime (.arity arity vs.length) paren m := by
  rw [call_eq,hv]
  simp only [if_pos hvs]

theorem call_overflow {name : String} (execute : List Stmt → Eval Flow)
    (hv : m.heap.callable? v = some (name,vs.length)) (hdepth : Machine.maxDepth ≤ m.depth) :
    Eval.call execute v paren vs m = Eval.stop (.stackOverflow paren.line) (m.note (.depthLimit name)) := by
  rw [call_eq,hv]
  simp only [ne_eq,not_true_eq_false,if_false,if_pos hdepth]
  rfl

theorem call_invokes {name : String} (execute : List Stmt → Eval Flow) (hv : m.heap.callable? v = some (name,vs.length))
    (hdepth : m.depth < Machine.maxDepth) :
    Eval.call execute v paren vs m = nested (Eval.invoke execute v paren vs) m := by
  rw [call_eq,hv]
  simp only [ne_eq,not_true_eq_false,if_false,if_neg (Nat.not_le_of_lt hdepth)]

theorem nested_ok (hx : x m.deeper = .ok a m₁) : nested x m = .ok a { m₁ with depth := m₁.depth - 1 } := by
  rw [Machine.deeper] at hx
  simp only [nested,hx]

theorem nested_error (hx : x m.deeper = .error halt m₁) : nested x m = .error halt { m₁ with depth := m₁.depth - 1 } := by
  rw [Machine.deeper] at hx
  simp only [nested,hx]

/-- A call that succeeds has been allowed. -/
theorem of_call_ok {name : String} {arity : Nat} (hv : m.heap.callable? v = some (name,arity)) {value : Value}
    (h : Eval.call (executeEach (execute n)) v paren vs m = .ok value m') :
    vs.length = arity ∧ m.depth < Machine.maxDepth ∧ ∃ m₁,
      Eval.invoke (executeEach (execute n)) v paren vs m.deeper = .ok value m₁ ∧ m' = { m₁ with depth := m.depth } := by
  by_cases hvs : vs.length ≠ arity
  · rw [call_arity _ hv hvs] at h
    cases h
  obtain rfl := not_not.mp hvs
  by_cases hdepth : m.depth < Machine.maxDepth
  · rw [call_invokes _ hv hdepth] at h
    refine ⟨rfl,hdepth,?_⟩
    cases hinvoke : Eval.invoke (executeEach (execute n)) v paren vs m.deeper with
    | ok u m₁ =>
      rw [nested_ok hinvoke] at h
      obtain ⟨rfl,rfl⟩ := EStateM.Result.ok.inj h
      have hback : m₁.depth = m.depth + 1 := ((Restores.governs.invoke (restoring n).stmts v paren vs).ok hinvoke).depth
      exact ⟨m₁,rfl,by rw [hback,Nat.add_sub_cancel]⟩
    | error halt m₁ =>
      rw [nested_error hinvoke] at h
      cases h
  · rw [call_overflow _ hv (Nat.le_of_not_lt hdepth)] at h
    cases h

end Lox

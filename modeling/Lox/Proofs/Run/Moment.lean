import Lox.Proofs.Run.Restored

/-! The moments that a run goes through, and how many calls are active at each of them. -/
namespace Lox

open Eval

/-- The machine that a piece of work leaves. -/
def Work.after (w : Work) (m : Machine) : Machine :=
  match w with
  | .program n ss => (Machine.executeProgram n ss).after m
  | .stmts n ss => (executeEach (execute n) ss).after m
  | .stmt n s => (execute n s).after m
  | .loop n condition body k => (whileLoop (evaluate n condition) (execute n body) k).after m
  | .expr n e => (evaluate n e).after m
  | .exprs n es => (evaluateEach (evaluate n) es).after m
  | .invoke n f paren vs => (Eval.invoke (executeEach (execute n)) f paren vs).after m
  | .apply n f vs => (Eval.apply (executeEach (execute n)) f vs).after m
  | .bind f i => m.binding f i
  | .classDefinition name parent methods => (Eval.defineClass name parent methods).after m

/-- The calls that are active while a piece of work is under way, besides those that were active before. -/
def Work.calls : Work → Nat
  | .invoke _ _ _ _ => 1
  | _ => 0

/-- The machines that a piece of work goes through: one at its start, one at its end, and those of its parts.
Between two of them there are only elementary actions. Each comes with the number of calls that are active
there, besides those that were active at the start. -/
inductive Moment : Work → Machine → Nat → Machine → Prop
  | start {w m} : Moment w m 0 m
  | finish {w m} : Moment w m 0 (w.after m)
  | part {w m w' m' k m''} (hs : Starts w m w' m') (h : Moment w' m' k m'') :
    Moment w m (w'.calls + k) m''

/-- What can be asked of an interpreter. -/
inductive Request
  | evaluate (e : Expr)
  | execute (s : Stmt)
  | block (ss : List Stmt) (scope : ScopeId)
  | call (callee : Value) (paren : Token) (arguments : List Value)

/-- The machine that is left when a request has been met or has failed. -/
def Request.after (n : Nat) (q : Request) (m : Machine) : Machine :=
  match q with
  | .evaluate e => (Lox.evaluate n e).after m
  | .execute s => (Lox.execute n s).after m
  | .block ss scope => (inScope scope (executeEach (Lox.execute n) ss)).after m
  | .call callee paren vs => (Eval.call (executeEach (Lox.execute n)) callee paren vs).after m

/-- The work that a request starts. Of a call, this is what is done once it has been allowed. -/
inductive Request.Starts (n : Nat) : Request → Machine → Work → Machine → Prop
  | evaluate {e m} : Starts n (.evaluate e) m (.expr n e) m
  | execute {s m} : Starts n (.execute s) m (.stmt n s) m
  | block {ss scope m} : Starts n (.block ss scope) m (.stmts n ss) { m with scope := scope }
  | call {f paren vs m name} (hf : m.heap.callable? f = some (name,vs.length))
    (hdepth : m.depth < Machine.maxDepth) : Starts n (.call f paren vs) m (.invoke n f paren vs) m.deeper

/-- The machines from a request to its end, each with the number of calls that have become active. -/
inductive Request.Moment (n : Nat) : Request → Machine → Nat → Machine → Prop
  | start {q m} : Moment n q m 0 m
  | finish {q m} : Moment n q m 0 (q.after n m)
  | part {q m w m' k m''} (hs : Request.Starts n q m w m') (h : Lox.Moment w m' k m'') :
    Moment n q m (w.calls + k) m''

variable {w w' : Work} {m m' : Machine} {n k : Nat}

theorem Eval.Restores.ok {α : Type} {x : Eval α} (hx : x.Restores) {a : α} (h : x m = .ok a m') :
    m.Resumes m' := by
  have hm := hx m
  rwa [Eval.after,h] at hm

theorem Restoring.ok {e : Expr} {v : Value} (h : evaluate n e m = .ok v m') : m'.depth = m.depth :=
  (((restoring n).expr e).ok h).depth

theorem Work.resumes (w : Work) (m : Machine) : m.Resumes (w.after m) := by
  cases w with
  | program n ss => exact Restores.executeProgram n ss m
  | stmts n ss => exact (restoring n).stmts ss m
  | stmt n s => exact (restoring n).stmt s m
  | loop n condition body k =>
    exact Restores.composes.whileLoop .exhausted ((restoring n).expr condition) ((restoring n).stmt body) k m
  | expr n e => exact (restoring n).expr e m
  | exprs n es => exact Restores.composes.evaluateEach (restoring n).expr es m
  | invoke n f paren vs => exact Restores.governs.invoke (restoring n).stmts f paren vs m
  | apply n f vs => exact Restores.governs.apply (restoring n).stmts f vs m
  | bind f i => exact .reheap (.bind m.heap f i)
  | classDefinition name parent methods => exact Restores.governs.defineClass name parent methods m

/-- Before its next part starts, work is back at its own depth. Only calls go deeper, and they are bounded. -/
theorem Starts.depth (h : Starts w m w' m') :
    m'.depth = m.depth + w'.calls ∧ (0 < w'.calls → m.depth < Machine.maxDepth) := by
  cases h with
  | binary_right he | logical_right he _ | ternary_true he _ | ternary_false he _ | arguments he
  | get_method he _ | set_value he | exprs_tail he | branch_then he _ | branch_else he _
  | loop_body he _ => exact ⟨Restoring.ok he,by simp [Work.calls]⟩
  | class_derived he =>
    have hback := Restoring.ok he
    exact ⟨hback,by simp [Work.calls]⟩
  | loop_again he _ hs =>
    exact ⟨(((restoring _).stmt _).ok hs).depth.trans (Restoring.ok he),by simp [Work.calls]⟩
  | stmts_tail hs | program_tail hs => exact ⟨(((restoring _).stmt _).ok hs).depth,by simp [Work.calls]⟩
  | invoke he hes hf hdepth =>
    have hback := (((Restores.composes.evaluateEach (restoring _).expr _).ok hes).depth).trans (Restoring.ok he)
    exact ⟨congrArg (· + 1) hback,fun _ => hback ▸ hdepth⟩
  | _ => exact ⟨rfl,by simp [Work.calls]⟩

theorem Moment.depth (h : Moment w m k m') : m'.depth = m.depth + k := by
  induction h with
  | start => rfl
  | finish => exact (Work.resumes _ _).depth
  | part hs _ ih => rw [ih,hs.depth.1,Nat.add_assoc]

theorem Moment.bounded (h : Moment w m k m') (hm : m.depth ≤ Machine.maxDepth) :
    m'.depth ≤ Machine.maxDepth := by
  induction h with
  | start => exact hm
  | @finish w m => exact (w.resumes m).depth ▸ hm
  | @part w m w' m' k m'' hs _ ih =>
    obtain ⟨hdepth,hcalls⟩ := hs.depth
    refine ih ?_
    cases w' <;> simp only [Work.calls] at hdepth hcalls <;> omega

namespace Request

theorem resumes (n : Nat) (q : Request) (m : Machine) : m.Resumes (q.after n m) := by
  cases q with
  | evaluate e => exact (restoring n).expr e m
  | execute s => exact (restoring n).stmt s m
  | block ss scope => exact Restores.inScope ((restoring n).stmts ss) scope m
  | call f paren vs => exact Restores.governs.call (restoring n).stmts f paren vs m

theorem Starts.depth {q : Request} (h : q.Starts n m w m') (hm : m.depth ≤ Machine.maxDepth) :
    m'.depth = m.depth + w.calls ∧ m'.depth ≤ Machine.maxDepth := by
  cases h with
  | evaluate | execute | block => exact ⟨rfl,hm⟩
  | call hf hdepth => exact ⟨rfl,hdepth⟩

end Request

/-- Whatever an interpreter is asked to do and however that ends, afterwards the scope and the depth are those
of before. Meanwhile the depth counts the active calls and stays within its bound. -/
theorem request_restores (n : Nat) (q : Request) (m : Machine) (hm : m.depth ≤ Machine.maxDepth) :
    (q.after n m).scope = m.scope ∧ (q.after n m).depth = m.depth ∧
      ∀ k m', q.Moment n m k m' → m'.depth = m.depth + k ∧ m'.depth ≤ Machine.maxDepth := by
  have hresumes := q.resumes n m
  refine ⟨hresumes.scope,hresumes.depth,fun k m' hmoment => ?_⟩
  cases hmoment with
  | start => exact ⟨rfl,hm⟩
  | finish => exact ⟨hresumes.depth,hresumes.depth ▸ hm⟩
  | part hs h =>
    obtain ⟨hdepth,hbound⟩ := hs.depth hm
    exact ⟨by rw [h.depth,hdepth,Nat.add_assoc],h.bounded hbound⟩

/-- A function that calls itself runs at the bound, and fails. -/
theorem request_restores_overflow :
    let f : Token := ⟨.identifier,"f",1⟩
    let paren : Token := ⟨.rightParen,")",1⟩
    let declaration : FunctionDecl := ⟨f,[],[.expression (.call (.variable (.numbered 0) f) paren [])]⟩
    let h := (Heap.initial.addFunction ⟨declaration,Heap.globals,false⟩).2
    let m : Machine := { Machine.initial .unlimited (.startingAt 0) with
      heap := h.define Heap.globals "f" (.function ⟨0⟩), depth := 2047 }
    let q : Request := .call (.function ⟨0⟩) paren []
    m.depth ≤ Machine.maxDepth ∧
      (∃ m', call (executeEach (execute 3)) (.function ⟨0⟩) paren [] m =
        .error (.error (.stackOverflow 1)) m') ∧
      (q.after 3 m).scope = Heap.globals ∧ (q.after 3 m).depth = 2047 ∧
      ∃ m', q.Moment 3 m 1 m' ∧ m'.scope = ⟨1⟩ ∧ m'.depth = 2047 + 1 := by
  intro f paren declaration h m q
  have hm : m.depth ≤ Machine.maxDepth := by decide
  obtain ⟨hscope,hdepth,hmoments⟩ := request_restores 3 q m hm
  have hbody : Moment (.invoke 3 (.function ⟨0⟩) paren []) m.deeper 0 (m.deeper.calling ⟨0⟩ []) :=
    .part .function (.part .body .start)
  have hmoment : q.Moment 3 m 1 (m.deeper.calling ⟨0⟩ []) := .part (.call rfl (by decide)) hbody
  exact ⟨hm,⟨_,rfl⟩,hscope,hdepth,_,hmoment,rfl,(hmoments 1 _ hmoment).1⟩

end Lox

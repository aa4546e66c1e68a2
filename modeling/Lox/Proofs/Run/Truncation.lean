import Lox.Proofs.Run.Expression
import Lox.Proofs.Run.Limited

/-! Everything that is done in the course of a run stops at the limit of the output, and is the same up to it. -/
namespace Lox

open Eval

/-- With this budget, expressions and statements stop at the limit only. -/
structure Truncating (r : Run) (n : Nat) : Prop where
  expr : ∀ e m, Visits r (.expr n e) m → m.output.limit = none → Truncates r (evaluate n e) m
  stmt : ∀ s m, Visits r (.stmt n s) m → m.output.limit = none → Truncates r (execute n s) m

namespace Truncating

variable {r : Run} {n : Nat} {m m₁ m₂ : Machine} (h : Truncating r n)

/-- An expression comes first. -/
theorem bind_expr {β : Type} {f : Value → Eval β} {e : Expr} (hm : m.output.limit = none)
    (hx : Truncates r (evaluate n e) m)
    (hf : ∀ v m₁, evaluate n e m = .ok v m₁ → m₁.output.limit = none → Truncates r (f v) m₁) :
    Truncates r (evaluate n e >>= f) m := hx.bind hm ((restoring n).expr e) hf

/-- A statement comes first. -/
theorem bind_stmt {β : Type} {f : Flow → Eval β} {s : Stmt} (hm : m.output.limit = none)
    (hx : Truncates r (execute n s) m)
    (hf : ∀ flow m₁, execute n s m = .ok flow m₁ → m₁.output.limit = none → Truncates r (f flow) m₁) :
    Truncates r (execute n s >>= f) m := hx.bind hm ((restoring n).stmt s) hf

include h

/-! ### Sequences -/

theorem exprs {es : List Expr} (hvisits : Visits r (.exprs n es) m) (hm : m.output.limit = none) :
    Truncates r (evaluateEach (evaluate n) es) m := by
  induction es generalizing m with
  | nil => exact .pure []
  | cons e es ih =>
    refine bind_expr hm (h.expr e m (.step hvisits .exprs_head) hm) fun v m₁ hv hm₁ => ?_
    have htail := ih (.step hvisits (.exprs_tail hv)) hm₁
    exact htail.bind hm₁ (Restores.composes.evaluateEach (restoring n).expr es) fun vs _ _ _ => .pure _

theorem stmts {ss : List Stmt} (hvisits : Visits r (.stmts n ss) m) (hm : m.output.limit = none) :
    Truncates r (executeEach (execute n) ss) m := by
  induction ss generalizing m with
  | nil => exact .pure _
  | cons s ss ih =>
    refine bind_stmt hm (h.stmt s m (.step hvisits .stmts_head) hm) fun flow m₁ hflow hm₁ => ?_
    cases flow with
    | normal => exact ih (.step hvisits (.stmts_tail hflow)) hm₁
    | returned v => exact .pure _

theorem loop {c : Expr} {s : Stmt} {k : Nat} (hvisits : Visits r (.loop n c s k) m)
    (hm : m.output.limit = none) : Truncates r (whileLoop (evaluate n c) (execute n s) k) m := by
  induction k generalizing m with
  | zero => exact .exhausted
  | succ k ih =>
    refine bind_expr hm (h.expr c m (.step hvisits .loop_condition) hm) fun v m₁ hv hm₁ => .ite ?_ ?_
    · intro htrue
      have hround := h.stmt s m₁ (.step hvisits (.loop_body hv htrue)) hm₁
      refine bind_stmt hm₁ hround fun flow m₂ hflow hm₂ => ?_
      cases flow with
      | normal => exact ih (.step hvisits (.loop_again hv htrue hflow)) hm₂
      | returned w => exact .pure _
    · exact fun _ => .pure _

theorem program {ss : List Stmt} (hvisits : Visits r (.program n ss) m) (hm : m.output.limit = none) :
    Truncates r (Machine.executeProgram n ss) m := by
  induction ss generalizing m with
  | nil => exact .pure ()
  | cons s ss ih =>
    refine bind_stmt hm (h.stmt s m (.step hvisits .program_head) hm) fun flow m₁ hflow hm₁ => ?_
    exact ih (.step hvisits (.program_tail hflow)) hm₁

/-! ### Calls -/

theorem apply {f : FunctionId} {vs : List Value} (hvisits : Visits r (.apply n f vs) m)
    (hm : m.output.limit = none) : Truncates r (Eval.apply (executeEach (execute n)) f vs) m := by
  have hinside := Truncates.inNew (h.stmts (.step hvisits .body) hm)
  have hnoted : (m.note (.functionCalled (m.heap.getFunction f).name)).output.limit = none := hm
  have hresult := hinside.bind (f := callResult (m.heap.getFunction f)) hnoted (.inNew ((restoring n).stmts _) _)
    fun flow m₁ _ _ => .of_plain (Plain.composes.callResult _ flow)
  exact hresult.after rfl (fun _ _ => rfl) rfl rfl rfl

theorem invoke (hr : r.Timeless) {callee : Value} {paren : Token} {vs : List Value}
    (hvisits : Visits r (.invoke n callee paren vs) m) (hm : m.output.limit = none) :
    Truncates r (Eval.invoke (executeEach (execute n)) callee paren vs) m := by
  cases callee with
  | native f =>
    cases f with
    | clock => exact (hr n paren vs m hvisits).elim
  | function f => exact h.apply (.step hvisits .function) hm
  | «class» c =>
    let i : InstanceId := ⟨m.heap.instances.size⟩
    cases hfound : (m.constructing c).heap.findMethod? c "init" with
    | none =>
      exact (Truncates.pure (m := m.constructing c) (Value.instance i)).after (construct_none _ vs hfound)
        (fun _ _ => construct_none _ vs hfound) rfl rfl rfl
    | some f =>
      have hbound : ((m.constructing c).binding f i).output.limit = none := hm
      have happly := h.apply (.step hvisits (.construction hfound)) hbound
      have hmade := happly.bind hbound (Restores.governs.apply (restoring n).stmts _ vs)
        fun _ _ _ _ => .pure (Value.instance i)
      exact hmade.after (construct_some _ vs hfound) (fun _ _ => construct_some _ vs hfound) rfl rfl rfl
  | _ => exact .of_plain (.raise _)

theorem call (hr : r.Timeless) {e : Expr} {paren : Token} {es : List Expr} {f : Value} {vs : List Value}
    (hvisits : Visits r (.expr (n + 1) (.call e paren es)) m) (he : evaluate n e m = .ok f m₁)
    (hes : evaluateEach (evaluate n) es m₁ = .ok vs m₂) (hm₂ : m₂.output.limit = none) :
    Truncates r (Eval.call (executeEach (execute n)) f paren vs) m₂ := by
  refine (?_ : Truncates r _ m₂).after (call_eq _ f paren vs m₂)
    (fun k c => call_eq _ f paren vs (m₂.limited k c)) rfl rfl rfl
  split
  next => exact .of_plain (.raise _)
  next name arity hcallable =>
    refine .ite (fun _ => .of_plain (.raise _)) fun harity => .ite ?_ fun hdepth => ?_
    · exact fun _ => .of_plain (.bind (.note _) fun _ => .stop _)
    · obtain rfl : vs.length = arity := Decidable.not_not.mp harity
      have hstarted := Visits.step hvisits (.invoke he hes hcallable (Nat.lt_of_not_le hdepth))
      exact .nested (h.invoke hr hstarted hm₂)

/-! ### Expressions and statements -/

theorem expr_succ (hr : r.Timeless) (e : Expr) (m : Machine) (hvisits : Visits r (.expr (n + 1) e) m)
    (hm : m.output.limit = none) : Truncates r (evaluate (n + 1) e) m := by
  cases e with
  | literal l => exact .pure l.value
  | grouping inner => exact h.expr inner m (.step hvisits .grouping) hm
  | unary op right =>
    refine bind_expr hm (h.expr right m (.step hvisits .unary) hm) fun v m₁ _ _ => ?_
    exact .of_plain (Plain.composes.outcome (applyUnary op v))
  | binary left op right =>
    refine bind_expr hm (h.expr left m (.step hvisits .binary_left) hm) fun v m₁ hv hm₁ => ?_
    have hright := h.expr right m₁ (.step hvisits (.binary_right hv)) hm₁
    exact bind_expr hm₁ hright fun w m₂ _ _ => .of_plain (Plain.composes.outcome (applyBinary op v w))
  | logical left op right =>
    refine bind_expr hm (h.expr left m (.step hvisits .logical_left) hm) fun v m₁ hv hm₁ => ?_
    refine .ite (fun _ => .pure v) fun hcircuits => ?_
    exact h.expr right m₁ (.step hvisits (.logical_right hv (by simpa using hcircuits))) hm₁
  | ternary c a b =>
    refine bind_expr hm (h.expr c m (.step hvisits .ternary_condition) hm) fun v m₁ hv hm₁ => ?_
    refine .ite (fun htrue => ?_) fun hfalse => ?_
    · exact h.expr a m₁ (.step hvisits (.ternary_true hv htrue)) hm₁
    · exact h.expr b m₁ (.step hvisits (.ternary_false hv (by simpa using hfalse))) hm₁
  | «variable» id name => exact .of_plain (Plain.composes.lookUp id name)
  | assign id name e =>
    refine bind_expr hm (h.expr e m (.step hvisits .assign_value) hm) fun v m₁ _ _ => ?_
    exact .of_plain (.bind (.assign id name v) fun _ => .pure v)
  | call callee paren es =>
    refine bind_expr hm (h.expr callee m (.step hvisits .callee) hm) fun f m₁ hf hm₁ => ?_
    have hes := h.exprs (.step hvisits (.arguments hf)) hm₁
    exact hes.bind hm₁ (Restores.composes.evaluateEach (restoring n).expr es)
      fun vs m₂ hvs hm₂ => h.call hr hvisits hf hvs hm₂
  | get object name =>
    refine bind_expr hm (h.expr object m (.step hvisits .get_object) hm) fun v m₁ _ _ => ?_
    exact .of_plain (Plain.composes.getProperty v name)
  | set object name e =>
    refine bind_expr hm (h.expr object m (.step hvisits .set_object) hm) fun v m₁ hv hm₁ => ?_
    cases v with
    | «instance» i =>
      have hvalue := h.expr e m₁ (.step hvisits (.set_value hv)) hm₁
      exact bind_expr hm₁ hvalue fun w m₂ _ _ => .of_plain (.bind (.changeHeap _) fun _ => .pure w)
    | _ => exact .of_plain (.raise _)
  | this id keyword => exact .of_plain (Plain.composes.lookUp id keyword)
  | super id keyword method => exact .of_plain (Plain.composes.superMethod id keyword method)

theorem superclassOf {name : Token} {e : Option Expr} {methods : List FunctionDecl}
    (hvisits : Visits r (.stmt (n + 1) (.class name e methods)) m) (hm : m.output.limit = none) :
    Truncates r (Eval.superclassOf (evaluate n) name e) (m.note (.classDefined name.lexeme)) := by
  cases e with
  | none => exact .pure none
  | some e =>
    refine bind_expr hm (h.expr e _ (.step hvisits .superclass) hm) fun v m₁ _ _ => ?_
    cases v with
    | «class» c => exact .pure (some c)
    | _ => cases e <;> exact .of_plain (.raise _)

theorem stmt_succ (s : Stmt) (m : Machine) (hvisits : Visits r (.stmt (n + 1) s) m)
    (hm : m.output.limit = none) : Truncates r (execute (n + 1) s) m := by
  have hdefine (name : Token) (v : Value) : Eval.Plain (do
      Eval.note (.variableDefined name.lexeme)
      Eval.define name.lexeme v
      return Flow.normal) := .bind (.note _) fun _ => .bind (.define _ v) fun _ => .pure _
  cases s with
  | expression e => exact bind_expr hm (h.expr e m (.step hvisits .expression) hm) fun _ _ _ _ => .pure _
  | print e =>
    refine bind_expr hm (h.expr e m (.step hvisits .print) hm) fun v m₁ hv hm₁ => ?_
    have hprint := Truncates.print hm₁ ⟨n,e,m,hvisits,hv⟩
    have hdone := hprint.bind (f := fun _ => Pure.pure Flow.normal) hm₁ (.print _) fun _ _ _ _ => .pure _
    exact hdone.after rfl (fun _ _ => rfl) rfl rfl rfl
  | var name initializer =>
    cases initializer with
    | none => exact .of_plain (hdefine name .nil)
    | some e =>
      refine bind_expr hm (h.expr e m (.step hvisits .var) hm) fun v _ _ _ => ?_
      exact .of_plain (hdefine name v)
  | block body =>
    have hinside := h.stmts (.step hvisits .block) hm
    exact (Truncates.inNew hinside).after rfl (fun _ _ => rfl) rfl rfl rfl
  | branch c s t =>
    refine bind_expr hm (h.expr c m (.step hvisits .branch_condition) hm) fun v m₁ hv hm₁ => ?_
    refine .ite (fun htrue => h.stmt s m₁ (.step hvisits (.branch_then hv htrue)) hm₁) fun hfalse => ?_
    cases t with
    | none => exact .pure _
    | some t => exact h.stmt t m₁ (.step hvisits (.branch_else hv (by simpa using hfalse))) hm₁
  | loop c s => exact h.loop (.step hvisits .loop) hm
  | function f =>
    exact .of_plain (.bind (.note _) fun _ => .get (fun _ => .bind (.allocate _) fun _ => .bind (.define _ _)
      fun _ => .pure _) fun _ _ _ => rfl)
  | «return» keyword value =>
    cases value with
    | none => exact .pure _
    | some e => exact bind_expr hm (h.expr e m (.step hvisits .returning) hm) fun v _ _ _ => .pure _
  | «class» name e methods =>
    have hnoted : (m.note (.classDefined name.lexeme)).output.limit = none := hm
    have hdefined := (h.superclassOf hvisits hm).bind (f := fun parent => (do
        defineClass name parent methods
        return Flow.normal)) hnoted (Restores.composes.superclassOf (restoring n).expr name e)
      fun parent _ _ _ => .of_plain (.bind (.defineClass name parent methods) fun _ => .pure _)
    exact hdefined.after rfl (fun _ _ => rfl) rfl rfl rfl

end Truncating

theorem truncating {r : Run} (hr : r.Timeless) (n : Nat) : Truncating r n := by
  induction n with
  | zero => exact ⟨fun _ _ _ _ => .exhausted,fun _ _ _ _ => .exhausted⟩
  | succ n ih => exact ⟨ih.expr_succ hr,ih.stmt_succ⟩

end Lox

import Lox.Proofs.Dialect.Machine

/-! Expressions and statements of a dialect keep to it. -/
namespace Lox

open Eval

variable {d : Dialect} {n : Nat}

theorem applyUnary_within {op : Token} {v w : Value} (h : applyUnary op v = .ok w) : w.Within d := by
  refine Value.within_of_ne fun f hf => ?_
  unfold applyUnary at h
  split at h
  · split at h <;> simp_all
  · simp_all
  · cases h

theorem applyBinary_within {op : Token} {v v' w : Value} (h : applyBinary op v v' = .ok w) : w.Within d := by
  refine Value.within_of_ne fun f hf => ?_
  subst hf
  unfold applyBinary at h
  split at h
  case h_1 => split at h <;> simp at h
  case h_4 =>
    unfold onNumbers at h
    split at h
    · dsimp only at h
      split at h <;> cases h
    · cases h
  case h_9 | h_10 => simp at h
  case h_11 => cases h
  all_goals
    unfold onNumbers at h
    split at h <;> simp at h

theorem literal_within (l : Literal) : l.value.Within d := by
  cases l <;> exact Value.within_of_ne (by simp [Literal.value])

/-- With this budget, expressions and statements of the dialect keep to it. -/
structure Obeying (d : Dialect) (n : Nat) : Prop where
  expr : ∀ e, e.Within d → (evaluate n e).Obeys d (Value.Within d)
  stmt : ∀ s, s.Within d → (execute n s).Obeys d (Flow.Within d)

namespace Obeying

open Eval.Obeys

variable (h : Obeying d n)
include h

theorem exprs {es : List Expr} (hes : Expr.ListWithin d es) :
    (evaluateEach (evaluate n) es).Obeys d fun vs => ∀ v ∈ vs, v.Within d :=
  .evaluateEach fun e he => h.expr e (hes.mem he)

theorem stmts (ss : List Stmt) (hss : Stmt.ListWithin d ss) :
    (executeEach (execute n) ss).Obeys d (Flow.Within d) := .executeEach fun s hs => h.stmt s (hss.mem hs)

theorem expr_succ (e : Expr) (he : e.Within d) : (evaluate (n + 1) e).Obeys d (Value.Within d) := by
  cases e with
  | literal l => exact pure (literal_within l)
  | grouping inner => exact h.expr inner he
  | unary op right => exact bind (h.expr right he) fun v _ => outcome fun _ => applyUnary_within
  | binary left op right =>
    exact bind (h.expr left he.1) fun v _ => bind (h.expr right he.2) fun w _ => outcome fun _ => applyBinary_within
  | logical left op right => exact bind (h.expr left he.1) fun v hv => ite (pure hv) (h.expr right he.2)
  | ternary c a b => exact bind (h.expr c he.1) fun v _ => ite (h.expr a he.2.1) (h.expr b he.2.2)
  | «variable» id name => exact lookUp id he
  | assign id name e => exact bind (h.expr e he) fun v hv => bind (assign id name hv) fun _ _ => pure hv
  | call callee paren es =>
    exact bind (h.expr callee he.1) fun f _ => bind (h.exprs he.2) fun vs hvs => call h.stmts f paren hvs
  | get object name => exact bind (h.expr object he) fun v _ => getProperty v name
  | set object name e =>
    refine bind (h.expr object he.1) fun v _ => ?_
    cases v with
    | «instance» i =>
      exact bind (h.expr e he.2) fun w hw =>
        bind (changeHeap fun _ hk => hk.setField i name.lexeme hw) fun _ _ => pure hw
    | _ => exact runtime _ name
  | this id keyword => exact lookUp id he
  | super id keyword method => exact superMethod id keyword method

theorem stmt_succ (s : Stmt) (hs : s.Within d) : (execute (n + 1) s).Obeys d (Flow.Within d) := by
  cases s with
  | expression e => exact bind (h.expr e hs) fun _ _ => pure trivial
  | print e =>
    exact bind (h.expr e hs) fun v _ => bind heap fun k _ => bind (print _) fun _ _ => pure trivial
  | var name initializer =>
    have hdefine (v : Value) (hv : v.Within d) : Eval.Obeys d (Flow.Within d) (do
        Eval.note (.variableDefined name.lexeme)
        Eval.define name.lexeme v
        return Flow.normal) := bind (note _) fun _ _ => bind (define _ hv) fun _ _ => pure trivial
    cases initializer with
    | none => exact bind (pure (Value.within_of_ne (by simp))) hdefine
    | some e => exact bind (h.expr e hs) hdefine
  | block body => exact bind get fun m _ => inNew (h.stmts body hs) .empty
  | branch c s t =>
    refine bind (h.expr c hs.1) fun v _ => ite (h.stmt s hs.2.1) ?_
    cases t with
    | none => exact pure trivial
    | some t => exact h.stmt t hs.2.2
  | loop c body => exact whileLoop (h.expr c hs.2.1) (h.stmt body hs.2.2) n
  | function f =>
    exact bind (note _) fun _ _ => bind get fun m _ => bind (allocate fun _ hk => hk.addFunction hs) fun f _ =>
      bind (define _ (within_function f)) fun _ _ => pure trivial
  | «return» keyword value =>
    cases value with
    | none => exact pure (Value.within_of_ne (by simp))
    | some e => exact bind (h.expr e hs) fun v hv => pure hv
  | «class» name superclass methods =>
    refine bind (note _) fun _ _ => bind (superclassOf name ?_) fun parent _ =>
      bind (defineClass name parent hs.2) fun _ _ => pure trivial
    rintro parent rfl
    exact h.expr parent hs.1

end Obeying

theorem obeying (d : Dialect) (n : Nat) : Obeying d n := by
  induction n with
  | zero => exact ⟨fun _ _ => .exhausted,fun _ _ => .exhausted⟩
  | succ n ih => exact ⟨ih.expr_succ,ih.stmt_succ⟩

theorem Eval.Obeys.executeProgram (n : Nat) {ss : List Stmt} (hss : Stmt.ListWithin d ss) :
    (Machine.executeProgram n ss).Obeys d fun _ => True := by
  induction ss with
  | nil => exact pure trivial
  | cons s ss ih => exact bind ((obeying d n).stmt s hss.1) fun _ _ => ih hss.2

end Lox

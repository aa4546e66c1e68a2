import Lox.Session

/-! A larger budget changes nothing about a computation that has come to its end. -/
namespace Lox

/-- The second computation does what the first one does, unless the first one has used up its budget. -/
def Eval.Continues {α : Type} (x y : Eval α) : Prop :=
  ∀ m, (∃ m', x m = .error .exhausted m') ∨ y m = x m

namespace Eval.Continues

variable {α β : Type} {x y : Eval α} {f g : α → Eval β}

theorem refl (x : Eval α) : Continues x x := fun _ => .inr rfl

theorem exhausted : Continues exhausted x := fun m => .inl ⟨m,rfl⟩

theorem bind (h : Continues x y) (hf : ∀ a, Continues (f a) (g a)) : Continues (x >>= f) (y >>= g) := by
  intro m
  simp only [Bind.bind,EStateM.bind]
  rcases h m with ⟨m',hx⟩ | hy
  · exact .inl ⟨m',by rw [hx]⟩
  · rw [hy]
    cases x m with
    | ok a m₁ => exact hf a m₁
    | error halt m₁ => exact .inr rfl

theorem behind (hf : ∀ a, Continues (f a) (g a)) : Continues (x >>= f) (x >>= g) := (refl x).bind hf

theorem ite {c : Prop} [Decidable c] {x' y' : Eval α} (h : Continues x y) (h' : Continues x' y') :
    Continues (if c then x else x') (if c then y else y') := by
  split
  · exact h
  · exact h'

theorem inScope (h : Continues x y) (i : ScopeId) : Continues (inScope i x) (inScope i y) := by
  intro m
  simp only [Eval.inScope]
  rcases h { m with scope := i } with ⟨m',hx⟩ | hy
  · exact .inl ⟨_,by rw [hx]⟩
  · exact .inr (by rw [hy])

theorem inNew (h : Continues x y) (s : Scope) : Continues (inNew s x) (inNew s y) :=
  .behind fun i => h.inScope i

theorem nested (h : Continues x y) : Continues (nested x) (nested y) := by
  intro m
  simp only [Eval.nested]
  rcases h { m with depth := m.depth + 1 } with ⟨m',hx⟩ | hy
  · exact .inl ⟨_,by rw [hx]⟩
  · exact .inr (by rw [hy])

/-! ### Calls -/

section

variable {execute execute' : List Stmt → Eval Flow} (h : ∀ ss, Continues (execute ss) (execute' ss))
include h

theorem apply (f : FunctionId) (vs : List Value) : Continues (apply execute f vs) (apply execute' f vs) :=
  .behind fun _ => .behind fun _ => (inNew (h _) _).bind fun _ => .refl _

theorem construct (c : ClassId) (vs : List Value) :
    Continues (construct execute c vs) (construct execute' c vs) := by
  refine .behind fun _ => .behind fun _ => .behind fun i => .behind fun k => ?_
  cases k.findMethod? c "init" with
  | none => exact .refl _
  | some f => exact .behind fun bound => (apply h bound vs).bind fun _ => .refl _

theorem invoke (callee : Value) (paren : Token) (vs : List Value) :
    Continues (invoke execute callee paren vs) (invoke execute' callee paren vs) := by
  cases callee with
  | function f => exact apply h f vs
  | «class» c => exact construct h c vs
  | _ => exact .refl _

theorem call (callee : Value) (paren : Token) (vs : List Value) :
    Continues (call execute callee paren vs) (call execute' callee paren vs) := by
  refine .behind fun m => ?_
  cases m.heap.callable? callee with
  | none => exact .refl _
  | some nameArity => exact .ite (.refl _) (.ite (.refl _) (nested (invoke h callee paren vs)))

end

/-! ### Sequences and loops -/

theorem evaluateEach {evaluate evaluate' : Expr → Eval Value} (h : ∀ e, Continues (evaluate e) (evaluate' e))
    (es : List Expr) : Continues (evaluateEach evaluate es) (evaluateEach evaluate' es) := by
  induction es with
  | nil => exact .refl _
  | cons e es ih => exact (h e).bind fun v => ih.bind fun vs => .refl _

theorem executeEach {execute execute' : Stmt → Eval Flow} (h : ∀ s, Continues (execute s) (execute' s))
    (ss : List Stmt) : Continues (executeEach execute ss) (executeEach execute' ss) := by
  induction ss with
  | nil => exact .refl _
  | cons s ss ih =>
    refine (h s).bind fun flow => ?_
    cases flow with
    | normal => exact ih
    | returned v => exact .refl _

/-- A loop may go round more often. -/
theorem whileLoop {condition condition' : Eval Value} {body body' : Eval Flow}
    (hcondition : Continues condition condition') (hbody : Continues body body') {n n' : Nat} (hn : n ≤ n') :
    Continues (whileLoop condition body n) (whileLoop condition' body' n') := by
  induction n generalizing n' with
  | zero => exact .exhausted
  | succ n ih =>
    obtain ⟨n',rfl⟩ := Nat.exists_eq_add_of_lt hn
    refine hcondition.bind fun v => .ite (hbody.bind fun flow => ?_) (.refl _)
    cases flow with
    | normal => exact ih (Nat.le_add_right n n')
    | returned v => exact .refl _

end Eval.Continues

open Eval

/-- With a larger budget, expressions and statements do what they do with a smaller one that is enough. -/
structure Continuing (n n' : Nat) : Prop where
  expr : ∀ e, Continues (evaluate n e) (evaluate n' e)
  stmt : ∀ s, Continues (execute n s) (execute n' s)

namespace Continuing

variable {n n' : Nat} (h : Continuing n n')
include h

theorem stmts (ss : List Stmt) : Continues (executeEach (execute n) ss) (executeEach (execute n') ss) :=
  .executeEach h.stmt ss

theorem expr_succ (e : Expr) : Continues (evaluate (n + 1) e) (evaluate (n' + 1) e) := by
  cases e with
  | literal | «variable» | this | super => exact .refl _
  | grouping inner => exact h.expr inner
  | unary op right => exact (h.expr right).bind fun v => .refl _
  | binary left op right => exact (h.expr left).bind fun v => (h.expr right).bind fun w => .refl _
  | logical left op right => exact (h.expr left).bind fun v => .ite (.refl _) (h.expr right)
  | ternary c a b => exact (h.expr c).bind fun v => .ite (h.expr a) (h.expr b)
  | assign id name e => exact (h.expr e).bind fun v => .refl _
  | call callee paren es =>
    exact (h.expr callee).bind fun f => (Continues.evaluateEach h.expr es).bind fun vs =>
      .call h.stmts f paren vs
  | get object name => exact (h.expr object).bind fun v => .refl _
  | set object name e =>
    refine (h.expr object).bind fun v => ?_
    cases v with
    | «instance» i => exact (h.expr e).bind fun w => .refl _
    | _ => exact .refl _

theorem stmt_succ (hn : n ≤ n') (s : Stmt) : Continues (execute (n + 1) s) (execute (n' + 1) s) := by
  cases s with
  | expression e => exact (h.expr e).bind fun _ => .refl _
  | print e => exact (h.expr e).bind fun v => .refl _
  | var name initializer =>
    cases initializer with
    | none => exact .refl _
    | some e => exact (h.expr e).bind fun v => .refl _
  | block body => exact .behind fun m => (h.stmts body).inNew _
  | branch c s t =>
    refine (h.expr c).bind fun v => .ite (h.stmt s) ?_
    cases t with
    | none => exact .refl _
    | some t => exact h.stmt t
  | loop c body => exact .whileLoop (h.expr c) (h.stmt body) hn
  | function d => exact .refl _
  | «return» keyword value =>
    cases value with
    | none => exact .refl _
    | some e => exact (h.expr e).bind fun v => .refl _
  | «class» name superclass methods =>
    refine .behind fun _ => Continues.bind ?_ fun parent => .refl _
    cases superclass with
    | none => exact .refl _
    | some e => exact (h.expr e).bind fun v => .refl _

end Continuing

theorem continuing {n n' : Nat} (hn : n ≤ n') : Continuing n n' := by
  induction n generalizing n' with
  | zero => exact ⟨fun _ => .exhausted,fun _ => .exhausted⟩
  | succ n ih =>
    obtain ⟨k,rfl⟩ := Nat.exists_eq_add_of_lt hn
    have hsmaller : n ≤ n + k := Nat.le_add_right n k
    exact ⟨(ih hsmaller).expr_succ,(ih hsmaller).stmt_succ hsmaller⟩

theorem Eval.Continues.executeProgram {n n' : Nat} (hn : n ≤ n') (ss : List Stmt) :
    Continues (Machine.executeProgram n ss) (Machine.executeProgram n' ss) := by
  induction ss with
  | nil => exact .refl _
  | cons s ss ih => exact ((continuing hn).stmt s).bind fun _ => ih

end Lox

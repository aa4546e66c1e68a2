import Lox.Proofs.Dialect.Evaluation
import Lox.Proofs.Run.Expression
import Lox.Proofs.Run.Plain
import Lox.Proofs.Run.Restored

/-! Without loops, everything comes to an end: syntax is finite, and calls do not nest deeper than they
may. -/
namespace Lox

/-- Any budget that is large enough leads to the same end. If this is a result, as many calls are active as
before. -/
inductive Eval.Ends {α : Type} (x : Nat → Eval α) (m : Machine) : Prop
  | ok (n : Nat) (a : α) (m₁ : Machine) (hx : ∀ k, n ≤ k → x k m = .ok a m₁) (hdepth : m₁.depth = m.depth)
  | error (n : Nat) (e : Error) (m₁ : Machine) (hx : ∀ k, n ≤ k → x k m = .error (.error e) m₁)

/-- A machine without loops, on which no more than so many calls can still become active. -/
structure Machine.Bounded (left : Nat) (m : Machine) : Prop where
  within : m.heap.Within .loopless
  depth : Machine.maxDepth ≤ m.depth + left

namespace Eval.Ends

variable {α β : Type} {x : Nat → Eval α} {y : Eval α} {m m₁ : Machine} {left : Nat} {Q : α → Prop}

theorem after {x y : Nat → Eval α} (h : Ends y m₁) (hx : ∀ n, x n m = y n m₁) (hdepth : m₁.depth = m.depth) :
    Ends x m := by
  cases h with
  | ok n a m₂ hy hdepth' => exact .ok n a m₂ (fun k hk => (hx k).trans (hy k hk)) (hdepth'.trans hdepth)
  | error n e m₂ hy => exact .error n e m₂ fun k hk => (hx k).trans (hy k hk)

theorem of_succ (h : Ends (fun n => x (n + 1)) m) : Ends x m := by
  have hpred {n k : Nat} (hk : n + 1 ≤ k) : n ≤ k - 1 ∧ k - 1 + 1 = k := by omega
  cases h with
  | ok n a m₁ hx hdepth =>
    exact .ok (n + 1) a m₁ (fun k hk => (hpred hk).2 ▸ hx (k - 1) (hpred hk).1) hdepth
  | error n e m₁ hx => exact .error (n + 1) e m₁ fun k hk => (hpred hk).2 ▸ hx (k - 1) (hpred hk).1

theorem of_plain (h : y.Plain ∧ y.Restores) : Ends (fun _ => y) m := by
  obtain ⟨hplain,hrestores⟩ := h
  have hdepth := (hrestores m).depth
  cases hy : y m with
  | ok a m₁ =>
    rw [Eval.after,hy] at hdepth
    exact .ok 0 a m₁ (fun _ _ => hy) hdepth
  | error halt m₁ =>
    cases halt with
    | error e => exact .error 0 e m₁ fun _ _ => hy
    | exhausted => exact absurd hy (hplain.decided m m₁)

/-- What comes to an end by itself. -/
theorem composes : Composes fun x => x.Plain ∧ x.Restores := Plain.composes.and Restores.composes

theorem pure (a : α) : Ends (fun _ => pure a) m := of_plain (composes.pure a)

/-- What comes second has to end on a machine that is as fit as the first one. -/
theorem bind {f : Nat → α → Eval β} (hm : m.Bounded left) (h : Ends x m) (hobeys : ∀ n, (x n).Obeys .loopless Q)
    (hf : ∀ a m₁, m₁.Bounded left → Q a → Ends (fun n => f n a) m₁) : Ends (fun n => x n >>= f n) m := by
  cases h with
  | error n e m₁ hx =>
    refine .error n e m₁ fun k hk => ?_
    simp only [Bind.bind,EStateM.bind,hx k hk]
  | ok n a m₁ hx hdepth =>
    obtain ⟨hwithin,hQ⟩ := (hobeys n).ok hm.within (hx n (Nat.le_refl n))
    have hsecond := hf a m₁ ⟨hwithin,hdepth ▸ hm.depth⟩ hQ
    have hbind (k : Nat) (hk : n ≤ k) : (x k >>= f k) m = f k a m₁ := by
      simp only [Bind.bind,EStateM.bind,hx k hk]
    cases hsecond with
    | ok n' b m₂ hfx hdepth' =>
      refine .ok (max n n') b m₂ (fun k hk => ?_) (hdepth'.trans hdepth)
      rw [hbind k (by omega),hfx k (by omega)]
    | error n' e m₂ hfx =>
      refine .error (max n n') e m₂ fun k hk => ?_
      rw [hbind k (by omega),hfx k (by omega)]

theorem ite {p : Prop} [Decidable p] {x y : Nat → Eval α} (hx : Ends x m) (hy : Ends y m) :
    Ends (fun n => if p then x n else y n) m := by
  split
  · exact hx
  · exact hy

theorem inScope {i : ScopeId} (h : Ends x { m with scope := i }) : Ends (fun n => inScope i (x n)) m := by
  cases h with
  | ok n a m₁ hx hdepth =>
    refine .ok n a { m₁ with scope := m.scope } (fun k hk => ?_) hdepth
    simp only [Eval.inScope,hx k hk]
  | error n e m₁ hx =>
    refine .error n e { m₁ with scope := m.scope } fun k hk => ?_
    simp only [Eval.inScope,hx k hk]

theorem inNew {s : Scope} (h : Ends x (m.inNew s)) : Ends (fun n => inNew s (x n)) m := by
  have hinside : Ends (fun n => Eval.inScope (m.heap.addScope s).1 (x n))
      { m with heap := (m.heap.addScope s).2 } := inScope h
  exact hinside.after (fun _ => rfl) rfl

theorem nested (h : Ends x m.deeper) : Ends (fun n => nested (x n)) m := by
  cases h with
  | ok n a m₁ hx hdepth =>
    refine .ok n a { m₁ with depth := m₁.depth - 1 } (fun k hk => ?_) (congrArg (· - 1) hdepth)
    have hbody := hx k hk
    rw [Machine.deeper] at hbody
    simp only [Eval.nested,hbody]
  | error n e m₁ hx =>
    refine .error n e { m₁ with depth := m₁.depth - 1 } fun k hk => ?_
    have hbody := hx k hk
    rw [Machine.deeper] at hbody
    simp only [Eval.nested,hbody]

end Eval.Ends

/-! ### Calls -/

/-- Bodies of functions end where one call less is left. -/
def Bodies (left : Nat) : Prop :=
  ∀ l, left = l + 1 → ∀ ss m, Stmt.ListWithin .loopless ss → Machine.Bounded l m →
    Eval.Ends (fun n => Eval.executeEach (execute n) ss) m

open Eval

variable {left : Nat} {m : Machine}

theorem Value.within_loopless (v : Value) : v.Within .loopless := .inl trivial

section

variable (hbodies : Bodies (left + 1)) (hm : m.Bounded left) (vs : List Value)
include hbodies hm

theorem apply_ends (f : FunctionId) : Ends (fun n => Eval.apply (executeEach (execute n)) f vs) m := by
  have hbody := (Stmt.functionWithin_iff _ _).mp (hm.within.function f)
  have hvs : ∀ v ∈ vs, v.Within .loopless := fun v _ => v.within_loopless
  have hcalling : (m.calling f vs).Bounded left := ⟨hm.within.addScope (.ofList _ hvs),hm.depth⟩
  have hnoted : (m.note (.functionCalled (m.heap.getFunction f).name)).Bounded left := ⟨hm.within,hm.depth⟩
  have hinside := Ends.inNew (hbodies left rfl _ (m.calling f vs) hbody hcalling)
  have hobeys (n : Nat) := ((obeying .loopless n).stmts _ hbody).inNew
    (s := ⟨.ofList (((m.heap.getFunction f).declaration.parameters.map Token.lexeme).zip vs),
      some (m.heap.getFunction f).closure⟩) (.ofList _ hvs)
  refine Ends.after (hinside.bind hnoted hobeys fun flow m₁ _ _ => ?_) (fun _ => rfl) rfl
  exact .of_plain (Ends.composes.callResult (m.heap.getFunction f) flow)

theorem construct_ends (c : ClassId) : Ends (fun n => construct (executeEach (execute n)) c vs) m := by
  have hmade : (m.constructing c).Bounded left := ⟨hm.within.addInstance c,hm.depth⟩
  let i : InstanceId := ⟨m.heap.instances.size⟩
  cases hfound : (m.constructing c).heap.findMethod? c "init" with
  | none =>
    exact (Ends.pure (m := m.constructing c) (.instance i)).after (fun n => construct_none _ vs hfound) rfl
  | some f =>
    have hbound : ((m.constructing c).binding f i).Bounded left := ⟨hmade.within.bind f i,hmade.depth⟩
    have happly := apply_ends hbodies hbound vs ((m.constructing c).heap.bind f i).1
    have hobeys (n : Nat) := Obeys.apply (obeying .loopless n).stmts ((m.constructing c).heap.bind f i).1
      fun v (_ : v ∈ vs) => v.within_loopless
    exact Ends.after (happly.bind hbound hobeys fun _ _ _ _ => .pure (Value.instance i))
      (fun n => construct_some _ vs hfound) rfl

theorem invoke_ends (callee : Value) (paren : Token) :
    Ends (fun n => Eval.invoke (executeEach (execute n)) callee paren vs) m := by
  cases callee with
  | native f => exact .ok 0 _ _ (fun _ _ => rfl) rfl
  | function f => exact apply_ends hbodies hm vs f
  | «class» c => exact construct_ends hbodies hm vs c
  | _ => exact .of_plain (Ends.composes.raise _)

end

/-- A call that would nest too deeply stops at once. -/
theorem call_ends (hbodies : Bodies left) (hm : m.Bounded left) (callee : Value) (paren : Token)
    (vs : List Value) : Ends (fun n => Eval.call (executeEach (execute n)) callee paren vs) m := by
  refine (?_ : Ends _ m).after (fun n => call_eq _ callee paren vs m) rfl
  split
  · exact .of_plain (Ends.composes.raise _)
  · refine .ite (.of_plain (Ends.composes.raise _)) ?_
    split
    · exact .of_plain (Ends.composes.bind (Ends.composes.note _) fun _ => ⟨.stop _,.stop _⟩)
    · cases left with
      | zero => exact absurd hm.depth (by omega)
      | succ left =>
        have hdeeper : m.deeper.Bounded left := by
          have hdepth := hm.depth
          refine ⟨hm.within,?_⟩
          show Machine.maxDepth ≤ m.depth + 1 + left
          omega
        exact (invoke_ends hbodies hdeeper vs callee paren).nested

/-! ### Expressions -/

mutual

theorem expr_ends (hbodies : Bodies left) {m : Machine} (hm : m.Bounded left) :
    ∀ e : Expr, e.Within .loopless → Ends (fun n => evaluate n e) m
  | .literal l,_ => .of_succ (.pure l.value)
  | .grouping inner,he => .of_succ (expr_ends hbodies hm inner he)
  | .unary op right,he => .of_succ <|
      (expr_ends hbodies hm right he).bind hm (fun n => (obeying .loopless n).expr right he)
        fun v m₁ _ _ => .of_plain (Ends.composes.outcome (applyUnary op v))
  | .binary left op right,he => .of_succ <|
      (expr_ends hbodies hm left he.1).bind hm (fun n => (obeying .loopless n).expr left he.1) fun v m₁ hm₁ _ =>
        (expr_ends hbodies hm₁ right he.2).bind hm₁ (fun n => (obeying .loopless n).expr right he.2)
          fun w m₂ _ _ => .of_plain (Ends.composes.outcome (applyBinary op v w))
  | .logical left op right,he => .of_succ <|
      (expr_ends hbodies hm left he.1).bind hm (fun n => (obeying .loopless n).expr left he.1) fun v m₁ hm₁ _ =>
        .ite (.pure v) (expr_ends hbodies hm₁ right he.2)
  | .ternary c a b,he => .of_succ <|
      (expr_ends hbodies hm c he.1).bind hm (fun n => (obeying .loopless n).expr c he.1) fun v m₁ hm₁ _ =>
        .ite (expr_ends hbodies hm₁ a he.2.1) (expr_ends hbodies hm₁ b he.2.2)
  | .variable id name,_ => .of_succ (.of_plain (Ends.composes.lookUp id name))
  | .assign id name e,he => .of_succ <|
      (expr_ends hbodies hm e he).bind hm (fun n => (obeying .loopless n).expr e he) fun v m₁ _ _ =>
        .of_plain (Ends.composes.bind ⟨.assign id name v,.assign id name v⟩ fun _ => Ends.composes.pure v)
  | .call callee paren es,he => .of_succ <|
      (expr_ends hbodies hm callee he.1).bind hm (fun n => (obeying .loopless n).expr callee he.1) fun f m₁ hm₁ _ =>
        (exprs_ends hbodies hm₁ es he.2).bind hm₁ (fun n => (obeying .loopless n).exprs he.2) fun vs m₂ hm₂ _ =>
          call_ends hbodies hm₂ f paren vs
  | .get object name,he => .of_succ <|
      (expr_ends hbodies hm object he).bind hm (fun n => (obeying .loopless n).expr object he) fun v m₁ _ _ =>
        .of_plain (Ends.composes.getProperty v name)
  | .set object name e,he => .of_succ <| by
      refine (expr_ends hbodies hm object he.1).bind hm (fun n => (obeying .loopless n).expr object he.1) ?_
      intro v m₁ hm₁ _
      cases v with
      | «instance» i =>
        refine (expr_ends hbodies hm₁ e he.2).bind hm₁ (fun n => (obeying .loopless n).expr e he.2) ?_
        intro w m₂ _ _
        exact .of_plain (Ends.composes.bind ⟨.changeHeap _,.setField i name.lexeme w⟩ fun _ => Ends.composes.pure w)
      | _ => exact .of_plain (Ends.composes.raise _)
  | .this id keyword,_ => .of_succ (.of_plain (Ends.composes.lookUp id keyword))
  | .super id keyword method,_ =>
    .of_succ (.of_plain (Ends.composes.superMethod id keyword method))

theorem exprs_ends (hbodies : Bodies left) {m : Machine} (hm : m.Bounded left) :
    ∀ es : List Expr, Expr.ListWithin .loopless es → Ends (fun n => evaluateEach (evaluate n) es) m
  | [],_ => .pure []
  | e :: es,hes =>
    (expr_ends hbodies hm e hes.1).bind hm (fun n => (obeying .loopless n).expr e hes.1) fun v _ hm₁ _ =>
      (exprs_ends hbodies hm₁ es hes.2).bind hm₁ (fun n => (obeying .loopless n).exprs hes.2) fun vs _ _ _ =>
        .pure (v :: vs)

end

/-! ### Statements -/

theorem print_ends (text : String) : Ends (fun _ => Eval.print text) m := by
  cases hwrite : m.output.write (text ++ "\n") with
  | mk written o => cases written with
    | ok u => exact .ok 0 () { m with output := o } (fun _ _ => by simp only [Eval.print,hwrite]) rfl
    | error fault =>
      exact .error 0 (.output fault) { m with output := o } fun _ _ => by simp only [Eval.print,hwrite]

theorem defineVariable_ends (name : Token) (v : Value) : Ends (fun _ => (do
    note (.variableDefined name.lexeme)
    define name.lexeme v
    return .normal : Eval Flow)) m :=
  .of_plain <| Ends.composes.bind (Ends.composes.note _) fun _ =>
    Ends.composes.bind ⟨.define _ v,.define _ v⟩ fun _ => Ends.composes.pure _

theorem function_ends (f : FunctionDecl) : Ends (fun n => execute n (.function f)) m :=
  .of_succ <| .of_plain (y := execute 1 (.function f)) ⟨.bind (.note _) fun _ => .get (fun _ => .bind (.allocate _)
    fun _ => .bind (.define _ _) fun _ => .pure _) fun _ _ _ => rfl,(restoring 1).stmt _⟩

theorem superclassOf_ends (hbodies : Bodies left) (hm : m.Bounded left) (name : Token) :
    ∀ e : Option Expr, Expr.OptionWithin .loopless e → Ends (fun n => superclassOf (evaluate n) name e) m
  | none,_ => .pure none
  | some e,he => by
    refine (expr_ends hbodies hm e he).bind hm (fun n => (obeying .loopless n).expr e he) fun v m₁ _ _ => ?_
    cases v with
    | «class» c => exact .pure (some c)
    | _ => cases e <;> exact .of_plain (Ends.composes.raise _)

mutual

theorem stmt_ends (hbodies : Bodies left) {m : Machine} (hm : m.Bounded left) :
    ∀ s : Stmt, s.Within .loopless → Ends (fun n => execute n s) m
  | .expression e,hs => .of_succ <|
      (expr_ends hbodies hm e hs).bind hm (fun n => (obeying .loopless n).expr e hs) fun _ _ _ _ => .pure _
  | .print e,hs => .of_succ <| by
      refine (expr_ends hbodies hm e hs).bind hm (fun n => (obeying .loopless n).expr e hs) fun v m₁ hm₁ _ => ?_
      have hprint := (print_ends (m₁.heap.display v)).bind hm₁ (fun _ => .print _) (f := fun _ _ => .pure Flow.normal)
        fun _ _ _ _ => .pure _
      exact hprint.after (fun _ => rfl) rfl
  | .var name none,hs => .of_succ (defineVariable_ends name .nil)
  | .var name (some e),hs => .of_succ <|
      (expr_ends hbodies hm e hs).bind hm (fun n => (obeying .loopless n).expr e hs) fun v _ _ _ =>
        defineVariable_ends name v
  | .block body,hs => .of_succ <|
      have hinside : (m.inNew ⟨∅,some m.scope⟩).Bounded left := ⟨hm.within.addScope .empty,hm.depth⟩
      (Ends.inNew (stmts_ends hbodies hinside body hs)).after (fun _ => rfl) rfl
  | .branch c s none,hs => .of_succ <|
      (expr_ends hbodies hm c hs.1).bind hm (fun n => (obeying .loopless n).expr c hs.1) fun v m₁ hm₁ _ =>
        .ite (stmt_ends hbodies hm₁ s hs.2.1) (.pure _)
  | .branch c s (some t),hs => .of_succ <|
      (expr_ends hbodies hm c hs.1).bind hm (fun n => (obeying .loopless n).expr c hs.1) fun v m₁ hm₁ _ =>
        .ite (stmt_ends hbodies hm₁ s hs.2.1) (stmt_ends hbodies hm₁ t hs.2.2)
  | .loop c body,hs => hs.1.elim
  | .function f,_ => function_ends f
  | .return keyword none,_ => .of_succ (.pure _)
  | .return keyword (some e),hs => .of_succ <|
      (expr_ends hbodies hm e hs).bind hm (fun n => (obeying .loopless n).expr e hs) fun v _ _ _ => .pure _
  | .class name superclass methods,hs => .of_succ <| by
      have hm' : (m.note (.classDefined name.lexeme)).Bounded left := ⟨hm.within,hm.depth⟩
      have hobeys (n : Nat) : (superclassOf (evaluate n) name superclass).Obeys .loopless fun _ => True :=
        .superclassOf name fun e he => (obeying .loopless n).expr e (by subst he; exact hs.1)
      have hdefined := (superclassOf_ends hbodies hm' name superclass hs.1).bind hm' hobeys
        (f := fun _ parent => (do
          defineClass name parent methods
          return Flow.normal))
        fun parent _ _ _ => .of_plain <| Ends.composes.bind
          ⟨.defineClass name parent methods,Restores.governs.defineClass name parent methods⟩ fun _ =>
            Ends.composes.pure Flow.normal
      exact hdefined.after (fun _ => rfl) rfl

theorem stmts_ends (hbodies : Bodies left) {m : Machine} (hm : m.Bounded left) :
    ∀ ss : List Stmt, Stmt.ListWithin .loopless ss → Ends (fun n => executeEach (execute n) ss) m
  | [],_ => .pure Flow.normal
  | s :: ss,hss => by
    refine (stmt_ends hbodies hm s hss.1).bind hm (fun n => (obeying .loopless n).stmt s hss.1) ?_
    intro flow m₁ hm₁ _
    cases flow with
    | normal => exact stmts_ends hbodies hm₁ ss hss.2
    | returned v => exact .pure (Flow.returned v)

end

/-- By induction on how many calls are left. -/
theorem bodies_end (left : Nat) : Bodies left := by
  induction left with
  | zero => exact fun l hl => absurd hl (by omega)
  | succ left ih =>
    intro l hl ss m hss hm
    obtain rfl : left = l := by omega
    exact stmts_ends ih hm ss hss

/-- A program without loops comes to an end on every heap without them. -/
theorem executeProgram_ends (ss : List Stmt) (hss : Stmt.ListWithin .loopless ss) {m : Machine}
    (hm : m.heap.Within .loopless) : Ends (fun n => Machine.executeProgram n ss) m := by
  have hbounded {m : Machine} (hm : m.heap.Within .loopless) : m.Bounded Machine.maxDepth := ⟨hm,by omega⟩
  induction ss generalizing m with
  | nil => exact .pure ()
  | cons s ss ih =>
    refine (stmt_ends (bodies_end _) (hbounded hm) s hss.1).bind (hbounded hm)
      (fun n => (obeying .loopless n).stmt s hss.1) fun _ m₁ hm₁ _ => ih hss.2 hm₁.within

end Lox

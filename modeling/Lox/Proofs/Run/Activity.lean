import Lox.Proofs.Run.Apply
import Lox.Proofs.Run.Course
import Lox.Proofs.Scoping.Return

/-! The activity of a call: the statements that its body has executed and the conditions that they have evaluated, in
their order. A statement that returns is the last of them. -/
namespace Lox

open Eval

/-- What follows a computation that has given a value. -/
def followed {α β : Type} (result : EStateM.Result Halt Machine α) (f : α → Machine → List β) : List β :=
  match result with
  | .ok a m => f a m
  | .error _ _ => []

/-- What statements in order do, up to the first that returns. -/
def traceEach (n : Nat) (trace : Stmt → Machine → List (Work × Machine)) : List Stmt → Machine → List (Work × Machine)
  | [], _ => []
  | s :: ss, m => trace s m ++ followed (execute n s m) fun flow m₁ =>
    if flow = .normal then traceEach n trace ss m₁ else []

/-- What a loop does: in each round its condition, and then its body. -/
def traceLoop (n : Nat) (condition : Expr) (body : Stmt) (trace : Machine → List (Work × Machine)) :
    Nat → Machine → List (Work × Machine)
  | 0, _ => []
  | k + 1, m => (.expr n condition,m) :: followed (evaluate n condition m) fun v m₁ =>
    if v.isTruthy then trace m₁ ++ followed (execute n body m₁) fun flow m₂ =>
      if flow = .normal then traceLoop n condition body trace k m₂ else []
    else []

/-- The statements and conditions of a statement, itself included, each with the machine that it was started on. Those of
the functions that it calls do not belong to it. -/
def trace : Nat → Stmt → Machine → List (Work × Machine)
  | 0, s, m => [(.stmt 0 s,m)]
  | n + 1, s, m => (.stmt (n + 1) s,m) :: match s with
    | .block body => traceEach n (trace n) body (m.inNew ⟨∅,some m.scope⟩)
    | .branch condition thenBranch elseBranch => (.expr n condition,m) :: followed (evaluate n condition m) fun v m₁ =>
      if v.isTruthy then trace n thenBranch m₁ else elseBranch.elim [] (trace n · m₁)
    | .loop condition body => traceLoop n condition body (trace n body) n m
    | _ => []

/-- What the body of a function does in a call. -/
def activity (n : Nat) (f : FunctionId) (vs : List Value) (m : Machine) : List (Work × Machine) :=
  traceEach n (trace n) (m.heap.getFunction f).declaration.body (m.calling f vs)

def Work.trace : Work → Machine → List (Work × Machine)
  | .stmt n s, m => Lox.trace n s m
  | .stmts n ss, m => traceEach n (Lox.trace n) ss m
  | .loop n condition body k, m => traceLoop n condition body (Lox.trace n body) k m
  | .apply n f vs, m => activity n f vs m
  | _, _ => []

/-- The work is that of a return statement. -/
def Work.IsReturn (w : Work) : Prop := ∃ n keyword e, w = .stmt n (.return keyword e)

/-- The outcome, but in this scope. -/
def back {α : Type} (scope : ScopeId) : EStateM.Result Halt Machine α → EStateM.Result Halt Machine α
  | .ok a m => .ok a { m with scope := scope }
  | .error halt m => .error halt { m with scope := scope }

/-- If there is a return statement among these items then it is the last one, and its outcome is that of the whole. -/
def Concludes (items : List (Work × Machine)) (outcome : EStateM.Result Halt Machine Flow) (scope : ScopeId) : Prop :=
  ∀ n keyword e m, (Work.stmt n (.return keyword e),m) ∈ items →
    (∃ before, items = before ++ [(.stmt n (.return keyword e),m)] ∧ ∀ p ∈ before, ¬p.1.IsReturn) ∧
      outcome = back scope (execute n (.return keyword e) m)

variable {n k : Nat} {s body : Stmt} {ss : List Stmt} {condition : Expr} {items items' : List (Work × Machine)} {w w' : Work}
  {p : Work × Machine} {m m₁ m' : Machine} {outcome : EStateM.Result Halt Machine Flow} {scope : ScopeId}
  {keyword : Token} {e : Option Expr} {r : Run}

/-! ### Outcomes -/

@[simp] theorem followed_ok {α β : Type} (a : α) (m : Machine) (f : α → Machine → List β) :
    followed (.ok a m) f = f a m := rfl

@[simp] theorem followed_error {α β : Type} (halt : Halt) (m : Machine) (f : α → Machine → List β) :
    followed (.error halt m) f = [] := rfl

@[simp] theorem back_back {α : Type} (i j : ScopeId) (result : EStateM.Result Halt Machine α) :
    back i (back j result) = back i result := by
  cases result <;> rfl

theorem inScope_eq {α : Type} (i : ScopeId) (x : Eval α) (m : Machine) :
    inScope i x m = back m.scope (x { m with scope := i }) := by
  simp only [inScope]
  cases x { m with scope := i } <;> rfl

/-- Computations come back to their scope by themselves. -/
theorem Eval.Restores.back {α : Type} {x : Eval α} (hx : x.Restores) (m : Machine) : back m.scope (x m) = x m := by
  have hscope := (hx m).scope
  simp only [Eval.after] at hscope
  cases hresult : x m with
  | ok a m₁ =>
    simp only [hresult] at hscope
    rw [Lox.back,← hscope]
  | error halt m₁ =>
    simp only [hresult] at hscope
    rw [Lox.back,← hscope]

theorem execute_block (n : Nat) (ss : List Stmt) (m : Machine) :
    execute (n + 1) (.block ss) m = back m.scope (executeEach (execute n) ss (m.inNew ⟨∅,some m.scope⟩)) :=
  inScope_eq (m.inNew ⟨∅,some m.scope⟩).scope (executeEach (execute n) ss)
    { m with heap := (m.inNew ⟨∅,some m.scope⟩).heap }

theorem execute_branch (n : Nat) (condition : Expr) (s : Stmt) (t : Option Stmt) (m : Machine) :
    execute (n + 1) (.branch condition s t) m = (evaluate n condition >>= fun v =>
      if v.isTruthy then execute n s else t.elim (pure .normal) (execute n)) m := by
  cases t <;> rfl

/-- A return statement does not go on to the next one. -/
theorem return_ne_normal : execute n (.return keyword e) m ≠ .ok .normal m' := by
  intro h
  cases n with
  | zero => cases h
  | succ n =>
    cases e with
    | none => cases h
    | some e =>
      obtain ⟨v,m₁,-,hreturn⟩ := of_bind_ok h
      cases hreturn

namespace Concludes

theorem nil : Concludes [] outcome scope := fun _ _ _ _ h => by cases h

theorem cons (hp : ¬p.1.IsReturn) (h : Concludes items outcome scope) : Concludes (p :: items) outcome scope := by
  intro n keyword e m hmem
  rcases List.mem_cons.mp hmem with rfl | hmem
  · exact absurd ⟨n,keyword,e,rfl⟩ hp
  · obtain ⟨⟨before,rfl,hbefore⟩,houtcome⟩ := h n keyword e m hmem
    exact ⟨⟨p :: before,rfl,List.forall_mem_cons.mpr ⟨hp,hbefore⟩⟩,houtcome⟩

/-- What goes on has not returned. -/
theorem append (h : Concludes items (.ok .normal m₁) scope) (h' : Concludes items' outcome scope) :
    Concludes (items ++ items') outcome scope := by
  -- The outcome of a return statement among the first items would have been theirs.
  have hnone (p : Work × Machine) (hp : p ∈ items) : ¬p.1.IsReturn := by
    obtain ⟨w,m⟩ := p
    rintro ⟨n,keyword,e,rfl⟩
    have houtcome := (h n keyword e m hp).2
    cases hresult : execute n (.return keyword e) m with
    | ok flow m' =>
      rw [hresult] at houtcome
      obtain ⟨rfl,-⟩ := EStateM.Result.ok.inj houtcome
      exact return_ne_normal hresult
    | error halt m' =>
      rw [hresult] at houtcome
      cases houtcome
  intro n keyword e m hmem
  rcases List.mem_append.mp hmem with hmem | hmem
  · exact absurd ⟨n,keyword,e,rfl⟩ (hnone _ hmem)
  · obtain ⟨⟨before,rfl,hbefore⟩,houtcome⟩ := h' n keyword e m hmem
    exact ⟨⟨items ++ before,(List.append_assoc _ _ _).symm,List.forall_mem_append.mpr ⟨hnone,hbefore⟩⟩,houtcome⟩

end Concludes

/-! ### Statements in order, and loops -/

/-- Statements conclude with their returns. -/
def Concluding (n : Nat) : Prop := ∀ s m, Concludes (trace n s m) (execute n s m) m.scope

namespace Concluding

theorem each (hn : Concluding n) (ss : List Stmt) (m : Machine) :
    Concludes (traceEach n (trace n) ss m) (executeEach (execute n) ss m) m.scope := by
  induction ss generalizing m with
  | nil => exact .nil
  | cons s ss ih =>
    have hhead := hn s m
    rw [traceEach,executeEach]
    cases hs : execute n s m with
    | error halt m₁ =>
      rw [bind_of_error hs,followed_error,List.append_nil]
      rwa [hs] at hhead
    | ok flow m₁ =>
      rw [bind_of_ok hs,followed_ok]
      rw [hs] at hhead
      cases flow with
      | normal =>
        have hback : m₁.scope = m.scope := (((restoring n).stmt s).ok hs).scope
        exact hhead.append (hback ▸ ih m₁)
      | returned v =>
        rw [if_neg (by simp),List.append_nil]
        exact hhead

theorem loop (hn : Concluding n) (condition : Expr) (body : Stmt) (k : Nat) (m : Machine) :
    Concludes (traceLoop n condition body (trace n body) k m)
      (whileLoop (evaluate n condition) (execute n body) k m) m.scope := by
  induction k generalizing m with
  | zero => exact .nil
  | succ k ih =>
    rw [traceLoop,whileLoop]
    refine .cons (by simp [Work.IsReturn]) ?_
    cases hc : evaluate n condition m with
    | error halt m₁ => exact .nil
    | ok v m₁ =>
      rw [bind_of_ok hc,followed_ok]
      have hback₁ : m₁.scope = m.scope := (((restoring n).expr condition).ok hc).scope
      cases hv : v.isTruthy with
      | false => exact .nil
      | true =>
        rw [if_pos rfl,if_pos rfl]
        have hbody := hback₁ ▸ hn body m₁
        cases hs : execute n body m₁ with
        | error halt m₂ =>
          rw [bind_of_error hs,followed_error,List.append_nil]
          rwa [hs] at hbody
        | ok flow m₂ =>
          rw [bind_of_ok hs,followed_ok]
          rw [hs] at hbody
          cases flow with
          | normal =>
            have hback₂ : m₂.scope = m.scope := (((restoring n).stmt body).ok hs).scope.trans hback₁
            exact hbody.append (hback₂ ▸ ih m₂)
          | returned v =>
            rw [if_neg (by simp),List.append_nil]
            exact hbody

end Concluding

theorem concluding (n : Nat) : Concluding n := by
  induction n with
  | zero =>
    intro s m n keyword e m' hmem
    obtain ⟨hw,rfl⟩ := Prod.mk.inj (List.mem_singleton.mp hmem)
    obtain ⟨rfl,rfl⟩ := Work.stmt.inj hw
    exact ⟨⟨[],rfl,by simp⟩,(((restoring 0).stmt _).back m').symm⟩
  | succ n ih =>
    intro s m
    cases s with
    | «return» keyword e =>
      intro k keyword' e' m' hmem
      obtain ⟨hw,rfl⟩ := Prod.mk.inj (List.mem_singleton.mp hmem)
      obtain ⟨rfl,hs⟩ := Work.stmt.inj hw
      rw [← hs]
      exact ⟨⟨[],rfl,by simp⟩,(((restoring (n + 1)).stmt _).back m').symm⟩
    | block body =>
      refine .cons (by simp [Work.IsReturn]) ?_
      have hbody := ih.each body (m.inNew ⟨∅,some m.scope⟩)
      intro k keyword e m' hmem
      obtain ⟨hbefore,houtcome⟩ := hbody k keyword e m' hmem
      exact ⟨hbefore,by rw [execute_block,houtcome,back_back]⟩
    | branch condition thenBranch elseBranch =>
      rw [execute_branch]
      refine .cons (by simp [Work.IsReturn]) (.cons (by simp [Work.IsReturn]) ?_)
      cases hc : evaluate n condition m with
      | error halt m₁ => exact .nil
      | ok v m₁ =>
        rw [bind_of_ok hc,followed_ok]
        have hback : m₁.scope = m.scope := (((restoring n).expr condition).ok hc).scope
        cases v.isTruthy with
        | true => exact hback ▸ ih thenBranch m₁
        | false =>
          cases elseBranch with
          | none => exact .nil
          | some t => exact hback ▸ ih t m₁
    | loop condition body => exact .cons (by simp [Work.IsReturn]) (ih.loop condition body n m)
    | _ => exact .cons (by simp [Work.IsReturn]) .nil

/-! ### Where the items come from -/

/-- An item of the work is done in the course of it, and no call is active then that was not active before. -/
def Within (w : Work) (m : Machine) (p : Work × Machine) : Prop := Part w m p.1 p.2 ∧ p.2.depth = m.depth

theorem mem_followed {α β : Type} {result : EStateM.Result Halt Machine α} {f : α → Machine → List β} {b : β} :
    b ∈ followed result f ↔ ∃ a m, result = .ok a m ∧ b ∈ f a m := by
  cases result <;> simp

namespace Within

theorem step (hs : Starts w m w' m') (hcalls : w'.calls = 0) (h : Within w' m' p) : Within w m p :=
  ⟨.part hs h.1,h.2.trans (by rw [hs.depth.1,hcalls,Nat.add_zero])⟩

/-- A part that is done at once, or by itself. -/
theorem starts (hs : Starts w m w' m') (hcalls : w'.calls = 0) : Within w m (w',m') := .step hs hcalls ⟨.whole,rfl⟩

theorem each (hn : ∀ s m, ∀ p ∈ trace n s m, Within (.stmt n s) m p) (ss : List Stmt) (m : Machine) :
    ∀ p ∈ traceEach n (trace n) ss m, Within (.stmts n ss) m p := by
  induction ss generalizing m with
  | nil => simp [traceEach]
  | cons s ss ih =>
    intro p hp
    rcases List.mem_append.mp hp with hp | hp
    · exact .step .stmts_head rfl (hn s m p hp)
    · obtain ⟨flow,m₁,hs,hp⟩ := mem_followed.mp hp
      cases flow with
      | normal => exact .step (.stmts_tail hs) rfl (ih m₁ p hp)
      | returned v => cases hp

theorem loop (hn : ∀ s m, ∀ p ∈ trace n s m, Within (.stmt n s) m p) (condition : Expr) (body : Stmt) (k : Nat)
    (m : Machine) : ∀ p ∈ traceLoop n condition body (trace n body) k m, Within (.loop n condition body k) m p := by
  induction k generalizing m with
  | zero => simp [traceLoop]
  | succ k ih =>
    intro p hp
    rcases List.mem_cons.mp hp with rfl | hp
    · exact .starts .loop_condition rfl
    obtain ⟨v,m₁,hc,hp⟩ := mem_followed.mp hp
    cases hv : v.isTruthy with
    | false =>
      rw [hv] at hp
      cases hp
    | true =>
      rw [hv] at hp
      rcases List.mem_append.mp hp with hp | hp
      · exact .step (.loop_body hc hv) rfl (hn body m₁ p hp)
      · obtain ⟨flow,m₂,hs,hp⟩ := mem_followed.mp hp
        cases flow with
        | normal => exact .step (.loop_again hc hv hs) rfl (ih m₂ p hp)
        | returned v => cases hp

end Within

theorem trace_within (n : Nat) (s : Stmt) (m : Machine) : ∀ p ∈ trace n s m, Within (.stmt n s) m p := by
  induction n generalizing s m with
  | zero =>
    intro p hp
    obtain rfl := List.mem_singleton.mp hp
    exact ⟨.whole,rfl⟩
  | succ n ih =>
    intro p hp
    rcases List.mem_cons.mp hp with rfl | hp
    · exact ⟨.whole,rfl⟩
    cases s with
    | block body => exact .step .block rfl (Within.each ih body _ p hp)
    | branch condition thenBranch elseBranch =>
      rcases List.mem_cons.mp hp with rfl | hp
      · exact .starts .branch_condition rfl
      obtain ⟨v,m₁,hc,hp⟩ := mem_followed.mp hp
      cases hv : v.isTruthy with
      | true =>
        rw [hv] at hp
        exact .step (.branch_then hc hv) rfl (ih thenBranch m₁ p hp)
      | false =>
        rw [hv] at hp
        cases elseBranch with
        | none => cases hp
        | some t => exact .step (.branch_else hc hv) rfl (ih t m₁ p hp)
    | loop condition body => exact .step .loop rfl (Within.loop ih condition body n m p hp)
    | _ => cases hp

theorem activity_within (n : Nat) (f : FunctionId) (vs : List Value) (m : Machine) :
    ∀ p ∈ activity n f vs m, Within (.apply n f vs) m p :=
  fun p hp => .step .body rfl (Within.each (trace_within n) _ _ p hp)

/-! ### Statements that return -/

theorem executeEach_returned {v : Value} (hn : ∀ s m m', execute n s m = .ok (.returned v) m' → s.Returns)
    (h : executeEach (execute n) ss m = .ok (.returned v) m') : ∃ b ∈ ss, b.Returns := by
  induction ss generalizing m with
  | nil => cases h
  | cons s ss ih =>
    obtain ⟨flow,m₁,hs,hrest⟩ := of_bind_ok h
    cases flow with
    | normal =>
      obtain ⟨b,hb,hreturns⟩ := ih hrest
      exact ⟨b,List.mem_cons_of_mem s hb,hreturns⟩
    | returned u =>
      obtain ⟨hflow,-⟩ := EStateM.Result.ok.inj hrest
      exact ⟨s,List.mem_cons_self,hn s m m₁ (hflow ▸ hs)⟩

theorem whileLoop_returned {v : Value} (hn : ∀ s m m', execute n s m = .ok (.returned v) m' → s.Returns)
    (h : whileLoop (evaluate n condition) (execute n body) k m = .ok (.returned v) m') : body.Returns := by
  induction k generalizing m with
  | zero => cases h
  | succ k ih =>
    obtain ⟨u,m₁,-,hround⟩ := of_bind_ok h
    cases hu : u.isTruthy with
    | false =>
      rw [hu] at hround
      cases hround
    | true =>
      rw [hu,if_pos rfl] at hround
      obtain ⟨flow,m₂,hs,hrest⟩ := of_bind_ok hround
      cases flow with
      | normal => exact ih hrest
      | returned u =>
        obtain ⟨hflow,-⟩ := EStateM.Result.ok.inj hrest
        exact hn body m₁ m₂ (hflow ▸ hs)

/-- Only a return statement in it makes a statement return. -/
theorem execute_returned {v : Value} (h : execute n s m = .ok (.returned v) m') : s.Returns := by
  induction n generalizing s m m' with
  | zero => cases h
  | succ n ih =>
    cases s with
    | «return» keyword e => exact .here
    | block body =>
      rw [execute_block] at h
      cases hbody : executeEach (execute n) body (m.inNew ⟨∅,some m.scope⟩) with
      | error halt m₁ =>
        rw [hbody] at h
        cases h
      | ok flow m₁ =>
        rw [hbody] at h
        obtain ⟨rfl,-⟩ := EStateM.Result.ok.inj h
        obtain ⟨b,hb,hreturns⟩ := executeEach_returned (fun _ _ _ => ih) hbody
        exact .block hb hreturns
    | branch condition thenBranch elseBranch =>
      rw [execute_branch] at h
      obtain ⟨u,m₁,-,hbranch⟩ := of_bind_ok h
      cases hu : u.isTruthy with
      | true =>
        rw [hu,if_pos rfl] at hbranch
        exact .then_branch (ih hbranch)
      | false =>
        rw [hu] at hbranch
        cases elseBranch with
        | none => cases hbranch
        | some t => exact .else_branch (ih hbranch)
    | loop condition body => exact .loop (whileLoop_returned (fun _ _ _ => ih) h)
    | expression e =>
      obtain ⟨_,_,_,h⟩ := of_bind_ok h
      cases h
    | print e | «class» name e methods =>
      obtain ⟨_,_,_,h⟩ := of_bind_ok h
      obtain ⟨_,_,_,h⟩ := of_bind_ok h
      obtain ⟨_,_,_,h⟩ := of_bind_ok h
      cases h
    | var name e =>
      cases e with
      | none => cases h
      | some e =>
        obtain ⟨_,_,_,h⟩ := of_bind_ok h
        cases h
    | function d => cases h

/-! ### The activity around a statement -/

/-- Statements and loops, the work that bodies consist of. -/
def Work.InBody : Work → Prop
  | .stmt _ _ | .stmts _ _ | .loop _ _ _ _ => True
  | _ => False

/-- One of the statements can return. -/
def Work.MayReturn : Work → Prop
  | .stmt _ s | .loop _ _ s _ => s.Returns
  | .stmts _ ss => ∃ b ∈ ss, b.Returns
  | _ => False

theorem Starts.in_body (hs : Starts w m w' m') (hw' : w'.InBody) (hw : w.InBody) :
    w'.trace m' ⊆ w.trace m ∧ (w'.MayReturn → w.MayReturn) := by
  cases hs with
  | block => exact ⟨List.subset_cons_self _ _,fun ⟨b,hb,hreturns⟩ => .block hb hreturns⟩
  | @branch_then n c s t _ v _ hc hv =>
    refine ⟨fun p hp => List.mem_cons_of_mem _ (List.mem_cons_of_mem _ (mem_followed.mpr ⟨v,_,hc,?_⟩)),.then_branch⟩
    rw [hv]
    exact hp
  | @branch_else n c s t _ v _ hc hv =>
    refine ⟨fun p hp => List.mem_cons_of_mem _ (List.mem_cons_of_mem _ (mem_followed.mpr ⟨v,_,hc,?_⟩)),.else_branch⟩
    rw [hv]
    exact hp
  | loop => exact ⟨List.subset_cons_self _ _,.loop⟩
  | @loop_body n c s k _ v _ hc hv =>
    refine ⟨fun p hp => List.mem_cons_of_mem _ (mem_followed.mpr ⟨v,_,hc,?_⟩),id⟩
    rw [hv]
    exact List.mem_append_left _ hp
  | @loop_again n c s k _ v m₁ _ hc hv hs =>
    refine ⟨fun p hp => List.mem_cons_of_mem _ (mem_followed.mpr ⟨v,_,hc,?_⟩),id⟩
    rw [hv]
    exact List.mem_append_right _ (mem_followed.mpr ⟨.normal,_,hs,hp⟩)
  | stmts_head => exact ⟨List.subset_append_left _ _,fun hreturns => ⟨_,List.mem_cons_self,hreturns⟩⟩
  | @stmts_tail n s ss _ _ hs =>
    refine ⟨fun p hp => List.mem_append_right _ (mem_followed.mpr ⟨.normal,_,hs,hp⟩),?_⟩
    exact fun ⟨b,hb,hreturns⟩ => ⟨b,List.mem_cons_of_mem s hb,hreturns⟩
  | program_head => exact hw.elim
  | body => exact hw.elim
  | _ => exact hw'.elim

/-- What is executed in the course of the work, as far as it belongs to the same body. -/
inductive Executes (w : Work) (m : Machine) : Work → Machine → Prop
  | itself : Executes w m w m
  | step {w₁ m₁ w₂ m₂} (h : Executes w m w₁ m₁) (hs : Starts w₁ m₁ w₂ m₂) (hbody : w₂.InBody) : Executes w m w₂ m₂

theorem Executes.in_body (h : Executes w m w' m') : (w' = w ∧ m' = m) ∨ w'.InBody := by
  cases h with
  | itself => exact .inl ⟨rfl,rfl⟩
  | step _ _ hbody => exact .inr hbody

/-- The activity of a call has everything that is executed in its body. -/
theorem Executes.trace {f : FunctionId} {vs : List Value} (h : Executes (.apply n f vs) m w m') :
    w.trace m' ⊆ activity n f vs m := by
  induction h with
  | itself => exact List.Subset.refl _
  | step h hs hbody ih =>
    rcases h.in_body with ⟨rfl,rfl⟩ | hw
    · cases hs with
      | body => exact List.Subset.refl _
    · exact List.Subset.trans (hs.in_body hbody hw).1 ih

/-- Statements are executed in a call, or else as parts of a statement of the program itself. -/
theorem Visits.around (h : Visits r w m) (hw : w.InBody) :
    (∃ n f vs m₀, Visits r (.apply n f vs) m₀ ∧ Executes (.apply n f vs) m₀ w m) ∨
      ∃ n b bs m₀, Visits r (.program n (b :: bs)) m₀ ∧ (w.MayReturn → b.Returns) := by
  induction h with
  | start => exact hw.elim
  | @step w m w' m' h hs ih =>
    -- Either the body is that of the work before, or it has just been started.
    by_cases hbody : w.InBody
    · rcases ih hbody with ⟨n,f,vs,m₀,happly,hexecutes⟩ | ⟨n,b,bs,m₀,hprogram,hb⟩
      · exact .inl ⟨n,f,vs,m₀,happly,hexecutes.step hs hw⟩
      · exact .inr ⟨n,b,bs,m₀,hprogram,fun hmay => hb ((hs.in_body hw hbody).2 hmay)⟩
    · cases hs with
      | body => exact .inl ⟨_,_,_,_,h,.step .itself .body trivial⟩
      | program_head => exact .inr ⟨_,_,_,_,h,id⟩
      | _ => first | exact hw.elim | exact absurd trivial hbody

end Lox

import Lox.Proofs.Run.Outcome

/-! Work starts other work only on machines that are fit for it. -/
namespace Lox

open Eval

variable {runs : List Run} {r : Run} {m m' : Machine} {n : Nat} {w : Work}

/-- At top level nothing is known of the names. -/
theorem At.top_after (hat : At runs .top m) {P : String → Prop} (h : Finished runs P m m') :
    At runs .top m' where
  toReady := hat.toReady.later h.later.distances h.good
  coherent := hat.coherent
  chain := h.later.scope ▸ hat.chain.extends h.later.heap
  exact := by simp [Context.top]

namespace Met

theorem of_starts {w' : Work} (h : Met runs r w m) (hs : Starts w m w' m')
    (htyped : Typed runs w' m') : Met runs r w' m' :=
  ⟨h.member,.step h.visits hs,htyped⟩

end Met

namespace Safe

variable (hn : Safe runs r n)
include hn

/-- The machine after an expression is at the same point. -/
theorem at_after {c : Context} {e : Expr} {v : Value} (hat : At runs c m)
    (he : Met runs r (.expr n e) m) (hv : evaluate n e m = .ok v m') :
    At runs c m' ∧ Valid runs m'.heap v := by
  obtain ⟨hfinished,hvalid⟩ := (hn.expr e m he).ok hv
  exact ⟨hat.later hfinished.later hfinished.good,hvalid⟩

theorem exprs_step {es : List Expr} (h : Met runs r (.exprs n es) m)
    (hs : Starts (.exprs n es) m w m') : Met runs r w m' := by
  apply h.of_starts hs
  obtain ⟨c,hat,p,hp,hpart⟩ := h.typed
  cases hs with
  | exprs_head => exact ⟨c,hat,p,hp,hpart.cons.1⟩
  | exprs_tail he =>
    have hfirst := h.of_starts .exprs_head ⟨c,hat,p,hp,hpart.cons.1⟩
    exact ⟨c,(hn.at_after hat hfirst he).1,p,hp,hpart.cons.2⟩

/-- Arguments are evaluated in order. -/
theorem exprs {es : List Expr} (h : Met runs r (.exprs n es) m) :
    Finishes runs r (fun _ => False) (evaluateEach (evaluate n) es) m
      fun vs h => ∀ v ∈ vs, Valid runs h v := by
  induction es generalizing m with
  | nil =>
    obtain ⟨c,hat,-⟩ := h.typed
    exact .of_ok rfl ⟨.refl _ m,hat.good⟩ (by simp)
  | cons e es ih =>
    have hfirst := hn.expr e m (hn.exprs_step h .exprs_head)
    refine hfirst.bind_same fun v m₁ hv hfinished hvalid => ?_
    refine (ih (hn.exprs_step h (.exprs_tail hv))).bind_same fun vs m₂ hvs hfinished' hvalids => ?_
    refine .of_ok rfl ⟨.refl _ m₂,hfinished'.good⟩ ?_
    intro a ha
    rcases List.mem_cons.mp ha with rfl | ha
    · exact hvalid.extends hfinished'.later.heap
    · exact hvalids a ha

theorem expr_step {e : Expr} (h : Met runs r (.expr (n + 1) e) m)
    (hs : Starts (.expr (n + 1) e) m w m') : Met runs r w m' := by
  apply h.of_starts hs
  obtain ⟨c,hat,p,hp,hpart⟩ := h.typed
  cases hs with
  | grouping => exact ⟨c,hat,p,hp,hpart.grouping⟩
  | unary => exact ⟨c,hat,p,hp,hpart.unary⟩
  | binary_left => exact ⟨c,hat,p,hp,hpart.binary.1⟩
  | binary_right ha =>
    have hleft := h.of_starts .binary_left ⟨c,hat,p,hp,hpart.binary.1⟩
    exact ⟨c,(hn.at_after hat hleft ha).1,p,hp,hpart.binary.2⟩
  | logical_left => exact ⟨c,hat,p,hp,hpart.logical.1⟩
  | logical_right ha hv =>
    have hleft := h.of_starts .logical_left ⟨c,hat,p,hp,hpart.logical.1⟩
    exact ⟨c,(hn.at_after hat hleft ha).1,p,hp,hpart.logical.2⟩
  | ternary_condition => exact ⟨c,hat,p,hp,hpart.ternary.1⟩
  | ternary_true hc hv =>
    have hcondition := h.of_starts .ternary_condition ⟨c,hat,p,hp,hpart.ternary.1⟩
    exact ⟨c,(hn.at_after hat hcondition hc).1,p,hp,hpart.ternary.2.1⟩
  | ternary_false hc hv =>
    have hcondition := h.of_starts .ternary_condition ⟨c,hat,p,hp,hpart.ternary.1⟩
    exact ⟨c,(hn.at_after hat hcondition hc).1,p,hp,hpart.ternary.2.2⟩
  | assign_value => exact ⟨c,hat,p,hp,hpart.assign.1⟩
  | callee => exact ⟨c,hat,p,hp,hpart.call.1⟩
  | arguments he =>
    have hcallee := h.of_starts .callee ⟨c,hat,p,hp,hpart.call.1⟩
    exact ⟨c,(hn.at_after hat hcallee he).1,p,hp,hpart.call.2⟩
  | invoke he hes hf hdepth =>
    have hcallee := h.of_starts .callee ⟨c,hat,p,hp,hpart.call.1⟩
    obtain ⟨hat₁,hvalid⟩ := hn.at_after hat hcallee he
    obtain ⟨hfinished,hvalids⟩ := (hn.exprs (h.of_starts (.arguments he) ⟨c,hat₁,p,hp,hpart.call.2⟩)).ok hes
    have hat₂ := hat₁.later hfinished.later hfinished.good
    exact ⟨hat₂.toReady.of_eq rfl rfl,hvalid.extends hfinished.later.heap,hvalids,_,hf⟩
  | get_object => exact ⟨c,hat,p,hp,hpart.get⟩
  | get_method he hf =>
    have hobject := h.of_starts .get_object ⟨c,hat,p,hp,hpart.get⟩
    obtain ⟨hat₁,-⟩ := hn.at_after hat hobject he
    refine ⟨hat₁.toReady,?_⟩
    simp only [Heap.property?] at hf
    split at hf
    next => simp at hf
    next =>
      obtain ⟨f,hfound,heq⟩ := Option.map_eq_some_iff.mp hf
      obtain rfl := Heap.Property.method.inj heq
      exact hat₁.good.findMethod hfound
  | set_object => exact ⟨c,hat,p,hp,hpart.set.1⟩
  | set_value he =>
    have hobject := h.of_starts .set_object ⟨c,hat,p,hp,hpart.set.1⟩
    exact ⟨c,(hn.at_after hat hobject he).1,p,hp,hpart.set.2⟩
  | super_method hd hc hi hf => exact ⟨hat.toReady.of_eq rfl rfl,hat.good.findMethod hf⟩

/-- The machine after a statement is behind what it declares. -/
theorem define_after {c : Context} {s : Stmt} (hat : At runs c m) (hsettled : c.initializing = none)
    {p : Run} (hpart : StmtIn p.program c s) (hs : Met runs r (.stmt n s) m)
    (hflow : execute n s m = .ok .normal m') : At runs (c.defineIf s.declared?) m' := by
  obtain ⟨hfinished,-,hbinds⟩ := (hn.stmt s m hs).ok hflow
  cases hdeclared : s.declared? with
  | none =>
    have hsame := hfinished.later.mono (Q := fun _ => False) (by simp [hdeclared])
    exact hat.later hsame hfinished.good
  | some name =>
    have hlater := hfinished.later.mono (Q := (· = name)) (by simp [hdeclared,eq_comm])
    have hname : name ≠ "this" ∧ name ≠ "super" := hpart.proper.declared_isName hdeclared
    exact hat.define hsettled hname (hpart.declares name hdeclared) hlater hfinished.good
      (hbinds name rfl hdeclared)

theorem stmts_step {ss : List Stmt} (h : Met runs r (.stmts n ss) m)
    (hs : Starts (.stmts n ss) m w m') : Met runs r w m' := by
  apply h.of_starts hs
  obtain ⟨c,hat,hsettled,p,hp,hpart⟩ := h.typed
  cases hs with
  | stmts_head => exact ⟨c,hat,hsettled,p,hp,hpart.cons.1⟩
  | stmts_tail hs =>
    have hfirst := h.of_starts .stmts_head ⟨c,hat,hsettled,p,hp,hpart.cons.1⟩
    have hafter := hn.define_after hat hsettled hpart.cons.1 hfirst hs
    exact ⟨_,hafter,(c.defineIf_initializing _).trans hsettled,p,hp,hpart.cons.2⟩

theorem stmts {ss : List Stmt} (h : Met runs r (.stmts n ss) m) :
    Finishes runs r (fun _ => True) (executeEach (execute n) ss) m
      fun flow h => flow.Valid runs h := by
  induction ss generalizing m with
  | nil =>
    obtain ⟨c,hat,-⟩ := h.typed
    exact .of_ok rfl ⟨.refl _ m,hat.good⟩ trivial
  | cons s ss ih =>
    have hfirst := hn.stmt s m (hn.stmts_step h .stmts_head)
    refine hfirst.bind (fun flow m₁ hflow hfinished hpost => ?_) (fun _ _ => trivial) fun _ h => h
    cases flow with
    | normal => exact ih (hn.stmts_step h (.stmts_tail hflow))
    | returned v => exact .of_ok rfl ⟨.refl _ m₁,hfinished.good⟩ hpost.1

theorem program_step {ss : List Stmt} (h : Met runs r (.program n ss) m)
    (hs : Starts (.program n ss) m w m') : Met runs r w m' := by
  apply h.of_starts hs
  obtain ⟨hat,p,hp,hpart⟩ := h.typed
  cases hs with
  | program_head => exact ⟨_,hat,rfl,p,hp,hpart.cons.1⟩
  | @program_tail _ s _ _ _ _ hs =>
    have hfirst := h.of_starts .program_head ⟨_,hat,rfl,p,hp,hpart.cons.1⟩
    have htop : Context.top.defineIf s.declared? = .top := by cases s.declared? <;> rfl
    exact ⟨hat.top_after ((hn.stmt s m hfirst).ok hs).1,p,hp,htop ▸ hpart.cons.2⟩

theorem program {ss : List Stmt} (h : Met runs r (.program n ss) m) :
    Finishes runs r (fun _ => True) (Machine.executeProgram n ss) m fun _ _ => True := by
  induction ss generalizing m with
  | nil => exact .of_ok rfl ⟨.refl _ m,h.typed.1.good⟩ trivial
  | cons s ss ih =>
    have hfirst := hn.stmt s m (hn.program_step h .program_head)
    refine hfirst.bind (fun flow m₁ hflow hfinished hpost => ?_) (fun _ _ => trivial) fun _ h => h
    exact ih (hn.program_step h (.program_tail hflow))

theorem loop_step {condition : Expr} {body : Stmt} {k : Nat}
    (h : Met runs r (.loop n condition body k) m) (hs : Starts (.loop n condition body k) m w m') :
    Met runs r w m' := by
  apply h.of_starts hs
  obtain ⟨c,hat,hsettled,hdeclared,p,hp,hcondition,hbody⟩ := h.typed
  cases hs with
  | loop_condition => exact ⟨c,hat,p,hp,hcondition⟩
  | loop_body hc hv =>
    have hfirst := h.of_starts .loop_condition ⟨c,hat,p,hp,hcondition⟩
    exact ⟨c,(hn.at_after hat hfirst hc).1,hsettled,p,hp,hbody⟩
  | loop_again hc hv hs =>
    have hfirst := h.of_starts .loop_condition ⟨c,hat,p,hp,hcondition⟩
    have hat₁ := (hn.at_after hat hfirst hc).1
    have hround := h.of_starts (.loop_body hc hv) ⟨c,hat₁,hsettled,p,hp,hbody⟩
    have hafter := hn.define_after hat₁ hsettled hbody hround hs
    rw [hdeclared] at hafter
    exact ⟨c,hafter,hsettled,hdeclared,p,hp,hcondition,hbody⟩

theorem loop {condition : Expr} {body : Stmt} {k : Nat}
    (h : Met runs r (.loop n condition body k) m) :
    Finishes runs r (fun _ => False) (whileLoop (evaluate n condition) (execute n body) k) m
      fun flow h => flow.Valid runs h := by
  induction k generalizing m with
  | zero =>
    obtain ⟨c,hat,-⟩ := h.typed
    exact .of_error rfl ⟨.refl _,rfl,hat.good,by simp⟩
  | succ k ih =>
    have hcondition := hn.expr condition m (hn.loop_step h .loop_condition)
    refine hcondition.bind_same fun v m₁ hv hfinished _ => ?_
    cases htruthy : v.isTruthy with
    | false =>
      exact .of_ok rfl ⟨.refl _ m₁,hfinished.good⟩ trivial
    | true =>
      obtain ⟨c,-,-,hdeclared,-⟩ := h.typed
      have hbody : Finishes runs r (fun _ => False) (execute n body) m₁
          fun flow h => flow.Valid runs h :=
        (hn.stmt body m₁ (hn.loop_step h (.loop_body hv htruthy))).mono (by simp [hdeclared])
          fun _ _ _ hpost => hpost.1
      rw [if_pos rfl]
      refine hbody.bind_same fun flow m₂ hflow hfinished' hvalid => ?_
      cases flow with
      | normal => exact ih (hn.loop_step h (.loop_again hv htruthy hflow))
      | returned v => exact .of_ok rfl ⟨.refl _ m₂,hfinished'.good⟩ hvalid

end Safe

end Lox

import Lox.Proofs.Run.Expression

/-! Statements end well, and so does everything else that a run comes to. -/
namespace Lox

open Eval

variable {runs : List Run} {r p : Run} {c : Context} {m m' : Machine} {n : Nat} {w : Work}
  {d : FunctionDecl}

theorem Safe.stmt_step (hn : Safe runs r n) {s : Stmt} (h : Met runs r (.stmt (n + 1) s) m)
    (hs : Starts (.stmt (n + 1) s) m w m') : Met runs r w m' := by
  apply h.of_starts hs
  obtain ⟨c,hat,hsettled,p,hp,hpart⟩ := h.typed
  cases hs with
  | expression => exact ⟨c,hat,p,hp,hpart.expression hsettled⟩
  | print => exact ⟨c,hat,p,hp,hpart.print hsettled⟩
  | var =>
    have hnew := hpart.var_new (hat.accepted p hp)
    exact ⟨_,hat.initializer hsettled hpart.proper.1 (hpart.declares _ rfl) hnew,p,hp,hpart.var.some⟩
  | @block _ body =>
    have hsite : Activation runs (.block body) ⟨m.heap.scopes.size⟩ :=
      ⟨r,h.member,_,m,h.visits,.block,rfl⟩
    exact ⟨_,.enter hat.toReady (hat.coherent.block hsettled body) rfl rfl hat.chain .empty hsite (by simp),
      rfl,p,hp,hpart.block⟩
  | branch_condition => exact ⟨c,hat,p,hp,(hpart.branch hsettled).1⟩
  | branch_then hc hv =>
    have hcondition := h.of_starts .branch_condition ⟨c,hat,p,hp,(hpart.branch hsettled).1⟩
    exact ⟨c,(hn.at_after hat hcondition hc).1,hsettled,p,hp,(hpart.branch hsettled).2.1⟩
  | branch_else hc hv =>
    have hcondition := h.of_starts .branch_condition ⟨c,hat,p,hp,(hpart.branch hsettled).1⟩
    exact ⟨c,(hn.at_after hat hcondition hc).1,hsettled,p,hp,(hpart.branch hsettled).2.2 _ rfl⟩
  | loop =>
    obtain ⟨hcondition,hbody⟩ := hpart.loop hsettled
    exact ⟨c,hat,hsettled,hpart.proper.2.2,p,hp,hcondition,hbody⟩
  | returning => exact ⟨c,hat,p,hp,(hpart.returning hsettled).some⟩
  | superclass =>
    exact ⟨c,hat.note _,p,hp,hpart.superclass_in (hat.accepted p hp) hsettled _ rfl⟩
  | class_alone => exact ⟨c,hat.note _,hsettled,p,hp,none,hpart,rfl⟩
  | @class_derived _ name _ _ _ _ _ he =>
    have hat₁ := hat.note (.classDefined name.lexeme)
    have hparent := h.of_starts .superclass
      ⟨c,hat₁,p,hp,hpart.superclass_in (hat.accepted p hp) hsettled _ rfl⟩
    exact ⟨c,(hn.at_after hat₁ hparent he).1,hsettled,p,hp,_,hpart,rfl⟩

/-- A statement that declares nothing only has to give a valid value. -/
theorem Finishes.ends {s : Stmt} {x : Eval Flow} (hs : s.declared? = none)
    (h : Finishes runs r (fun _ => False) x m fun flow h => flow.Valid runs h) :
    Finishes runs r (s.declared? = some ·) x m (s.Ends runs m) :=
  h.mono (fun _ => False.elim) fun _ _ _ hvalid => ⟨hvalid,by simp [hs]⟩

theorem print_finishes {text : String} (hgood : Good runs m.heap) :
    Finishes runs r (fun _ => False) (Eval.print text) m fun _ _ => True := by
  simp only [Finishes,Ensures,Eval.print]
  split
  next a m' hok =>
    split at hok
    next =>
      obtain ⟨-,rfl⟩ := EStateM.Result.ok.inj hok
      exact ⟨⟨.of_eq rfl rfl rfl,hgood⟩,trivial⟩
    next => simp at hok
  next halt m' herror =>
    split at herror
    next => simp at herror
    next =>
      obtain ⟨rfl,rfl⟩ := EStateM.Result.error.inj herror
      exact ⟨.refl _,rfl,hgood,by simp⟩

/-- A function is defined in the scope that it closes over, so that it can call itself. -/
theorem Safe.function (h : Met runs r (.stmt (n + 1) (.function d)) m) :
    Finishes runs r (· = d.name.lexeme) (execute (n + 1) (.function d)) m
      ((Stmt.function d).Ends runs m) := by
  obtain ⟨c,hat,hsettled,p,hp,hpart⟩ := h.typed
  have hname : d.name.IsName := hpart.proper.declared_isName rfl
  let f : Function := ⟨d,m.scope,false⟩
  let h₁ := (m.heap.addFunction f).2
  let h₂ := h₁.define m.scope d.name.lexeme (.function ⟨m.heap.functions.size⟩)
  have hgrown : m.heap.Extends h₁ := .addFunction m.heap f
  have hdefined : h₁.Extends h₂ := .define _ _ _ _
  have hbound (hlt : m.scope.index < m.heap.scopes.size) : h₂.Binds m.scope d.name.lexeme :=
    (Heap.binds_define _ _ _ _ _ _).mpr (.inl ⟨rfl,hlt,rfl⟩)
  have hnew : h₂.getFunction ⟨m.heap.functions.size⟩ = f :=
    (Heap.getFunction_addFunction m.heap f _).trans (if_pos rfl)
  have hcoherent := hat.coherent.define hsettled hname (hpart.declares _ rfl)
  have hvalid : Valid runs h₂ (.function ⟨m.heap.functions.size⟩) := by
    refine ⟨by simp [h₂,h₁,Heap.addFunction,Heap.define],p,c.define d.name.lexeme,.function,?_⟩
    rw [hnew]
    exact ⟨hp,hcoherent,(Context.mark_initializing _ _ _).trans hsettled,hpart.function,
      hat.chain.define (hgrown.trans hdefined) hbound,by simp [f]⟩
  have hlater : Later (· = d.name.lexeme) m
      { m.note (.functionDefined d.name.lexeme) with heap := h₂ } := by
    have hadded : Later.Same m { m.note (.functionDefined d.name.lexeme) with heap := h₁ } :=
      .of_heap hgrown rfl rfl rfl
    exact hadded.same_trans (.define (m := { m.note (.functionDefined d.name.lexeme) with heap := h₁ }) _ _)
  refine .of_ok rfl ⟨hlater,(hat.good.addFunction f).define_recursive hname hvalid⟩ ⟨trivial,?_⟩
  intro name _ hdeclared hlt
  obtain rfl := Option.some.inj hdeclared
  exact hbound hlt

/-- A variable is defined once its value is known. -/
theorem variable_finishes (hgood : Good runs m.heap) {name : Token} (hname : name.IsName) {v : Value}
    (hv : Valid runs m.heap v) :
    Finishes runs r (· = name.lexeme) (do
      Eval.note (.variableDefined name.lexeme)
      Eval.define name.lexeme v
      return Flow.normal) m fun flow h => flow.Valid runs h ∧
        (m.scope.index < m.heap.scopes.size → h.Binds m.scope name.lexeme) := by
  have hdefine := define_finishes (r := r) (m := m.note (.variableDefined name.lexeme)) hgood hname hv
  refine .note hgood ?_
  refine hdefine.bind (Q := fun _ => False) (fun _ m₁ _ hfinished hbound => ?_) (fun _ h => h)
    fun _ => False.elim
  exact .of_ok rfl ⟨.refl _ m₁,hfinished.good⟩ ⟨trivial,hbound⟩

theorem Safe.variable (hn : Safe runs r n) {name : Token} {initializer : Option Expr}
    (h : Met runs r (.stmt (n + 1) (.var name initializer)) m) :
    Finishes runs r ((Stmt.var name initializer).declared? = some ·)
      (execute (n + 1) (.var name initializer)) m ((Stmt.var name initializer).Ends runs m) := by
  obtain ⟨c,hat,hsettled,p,hp,hpart⟩ := h.typed
  have hname : name.IsName := hpart.proper.1
  cases initializer with
  | none =>
    have hdefined := variable_finishes (r := r) hat.good hname (v := .nil) trivial
    refine hdefined.mono (fun _ heq => congrArg some heq.symm) fun flow m₁ _ hpost => ⟨hpost.1,?_⟩
    rintro _ - heq hlt
    obtain rfl := Option.some.inj heq
    exact hpost.2 hlt
  | some e =>
    refine (hn.expr e m (hn.stmt_step h .var)).bind_same fun v m₁ _ hfinished hvalid => ?_
    have hdefined := variable_finishes (r := r) hfinished.good hname hvalid
    refine hdefined.mono (fun _ heq => congrArg some heq.symm) fun flow m₂ _ hpost => ⟨hpost.1,?_⟩
    rintro _ - heq hlt
    obtain rfl := Option.some.inj heq
    have hlater := hfinished.later
    have hbound := hpost.2 (hlater.scope ▸ Nat.lt_of_lt_of_le hlt hlater.heap.scopes)
    exact hlater.scope ▸ hbound

theorem Safe.branch (hn : Safe runs r n) {condition : Expr} {thenBranch : Stmt}
    {elseBranch : Option Stmt}
    (h : Met runs r (.stmt (n + 1) (.branch condition thenBranch elseBranch)) m) :
    Finishes runs r (fun _ => False) (execute (n + 1) (.branch condition thenBranch elseBranch)) m
      fun flow h => flow.Valid runs h := by
  obtain ⟨c,hat,hsettled,p,hp,hpart⟩ := h.typed
  obtain ⟨-,⟨-,hthen⟩,helse⟩ := hpart.proper
  have hcondition := hn.expr condition m (hn.stmt_step h .branch_condition)
  refine hcondition.bind_same fun v m₁ hc hfinished _ => ?_
  split
  next hv =>
    have hbranch := hn.stmt thenBranch m₁ (hn.stmt_step h (.branch_then hc hv))
    exact hbranch.mono (by simp [hthen]) fun _ _ _ hends => hends.1
  next hv =>
    cases elseBranch with
    | none => exact .of_ok rfl ⟨.refl _ m₁,hfinished.good⟩ trivial
    | some s =>
      have hbranch := hn.stmt s m₁ (hn.stmt_step h (.branch_else hc (by simpa using hv)))
      exact hbranch.mono (by simp [helse.2]) fun _ _ _ hends => hends.1

theorem Safe.superclassOf (hn : Safe runs r n) {name : Token} {e : Expr} {methods : List FunctionDecl}
    (h : Met runs r (.stmt (n + 1) (.class name (some e) methods)) m) :
    Finishes runs r (fun _ => False) (Eval.superclassOf (evaluate n) name (some e))
      (m.note (.classDefined name.lexeme)) fun _ _ => True := by
  refine (hn.expr e _ (hn.stmt_step h .superclass)).bind_same fun v m₁ _ hfinished _ => ?_
  cases v with
  | «class» k => exact .of_ok rfl ⟨.refl _ m₁,hfinished.good⟩ trivial
  | _ => cases e <;> exact .runtime hfinished.good _ _

theorem superclassOf_class {evaluate : Expr → Eval Value} (name : Token) {e : Expr} {k : ClassId}
    (h : evaluate e m = .ok (.class k) m') : Eval.superclassOf evaluate name (some e) m = .ok (some k) m' := by
  simp only [Eval.superclassOf,Bind.bind,EStateM.bind,h]
  rfl

theorem superclassOf_ok {evaluate : Expr → Eval Value} {name : Token} {e : Expr} {parent : Option ClassId}
    (h : Eval.superclassOf evaluate name (some e) m = .ok parent m') :
    ∃ k, parent = some k ∧ evaluate e m = .ok (.class k) m' := by
  have hsuper : Eval.superclassOf evaluate name (some e) m = EStateM.bind (evaluate e) _ m := rfl
  rw [hsuper,EStateM.bind] at h
  cases hv : evaluate e m with
  | error halt m₁ => simp [hv] at h
  | ok v m₁ =>
    simp only [hv] at h
    cases v with
    | «class» k =>
      obtain ⟨rfl,rfl⟩ := EStateM.Result.ok.inj h
      exact ⟨k,rfl,rfl⟩
    | _ => cases e <;> cases h

theorem Safe.classStatement (hn : Safe runs r n) {name : Token} {superclass : Option Expr}
    {methods : List FunctionDecl} (h : Met runs r (.stmt (n + 1) (.class name superclass methods)) m) :
    Finishes runs r ((Stmt.class name superclass methods).declared? = some ·)
      (execute (n + 1) (.class name superclass methods)) m
      ((Stmt.class name superclass methods).Ends runs m) := by
  obtain ⟨c,hat,-⟩ := h.typed
  have hends {parent : Option ClassId} {m₁ : Machine} (hlater : Later.Same m m₁)
      (hclass : Met runs r (.classDefinition name parent methods) m₁) :
      Finishes runs r ((Stmt.class name superclass methods).declared? = some ·) (do
        Eval.defineClass name parent methods
        return Flow.normal) m₁ ((Stmt.class name superclass methods).Ends runs m) := by
    refine hclass.defineClass.bind (Q := fun _ => False) (fun _ m₂ _ hfinished hbound => ?_)
      (fun _ heq => congrArg some heq.symm) fun _ => False.elim
    refine .of_ok rfl ⟨.refl _ m₂,hfinished.good⟩ ⟨trivial,?_⟩
    rintro _ - heq hlt
    obtain rfl := Option.some.inj heq
    have hbound' := hbound (hlater.scope ▸ Nat.lt_of_lt_of_le hlt hlater.heap.scopes)
    exact hlater.scope ▸ hbound'
  cases superclass with
  | none => exact .note hat.good (hends (.of_eq rfl rfl rfl) (hn.stmt_step h .class_alone))
  | some e =>
    refine .note hat.good ((hn.superclassOf h).bind_same fun parent m₁ hparent hfinished _ => ?_)
    obtain ⟨k,rfl,he⟩ := superclassOf_ok hparent
    have hnoted : Later.Same m (m.note (.classDefined name.lexeme)) := .of_eq rfl rfl rfl
    exact hends (hnoted.same_trans hfinished.later) (hn.stmt_step h (.class_derived he))

/-- What a statement does with one step more of the budget. -/
theorem Safe.stmt_succ (hn : Safe runs r n) {s : Stmt} (h : Met runs r (.stmt (n + 1) s) m) :
    Finishes runs r (s.declared? = some ·) (execute (n + 1) s) m (s.Ends runs m) := by
  obtain ⟨c,hat,hsettled,p,hp,hpart⟩ := h.typed
  have hsame : Finished runs (fun _ => False) m m := ⟨.refl _ m,hat.good⟩
  cases s with
  | expression e =>
    refine .ends rfl ((hn.expr e m (hn.stmt_step h .expression)).bind_same fun v m₁ _ hfinished _ => ?_)
    exact .of_ok rfl ⟨.refl _ m₁,hfinished.good⟩ trivial
  | print e =>
    refine .ends rfl ((hn.expr e m (hn.stmt_step h .print)).bind_same fun v m₁ _ hfinished _ => ?_)
    refine .heap ((print_finishes hfinished.good).bind_same fun _ m₂ _ hfinished' _ => ?_)
    exact .of_ok rfl ⟨.refl _ m₂,hfinished'.good⟩ trivial
  | var name initializer => exact hn.variable h
  | block body =>
    have hbody := (hn.stmts (hn.stmt_step h .block)).inNew
    exact .ends rfl (.get hbody)
  | branch condition thenBranch elseBranch => exact .ends rfl (hn.branch h)
  | loop condition body => exact .ends rfl (hn.loop (hn.stmt_step h .loop))
  | function d =>
    exact (Safe.function h).mono (fun _ hname => congrArg some hname.symm) fun _ _ _ hends => hends
  | «return» keyword value =>
    cases value with
    | none => exact .ends rfl (.of_ok rfl hsame trivial)
    | some e =>
      have hvalue := hn.expr e m (hn.stmt_step h .returning)
      refine .ends rfl (hvalue.bind_same fun v m₁ _ hfinished hvalid => ?_)
      exact .of_ok rfl ⟨.refl _ m₁,hfinished.good⟩ hvalid
  | «class» name superclass methods => exact hn.classStatement h

/-! ### Whole runs -/

theorem safe (runs : List Run) (r : Run) (n : Nat) : Safe runs r n := by
  induction n with
  | zero =>
    constructor
    · intro e m h
      obtain ⟨c,hat,-⟩ := h.typed
      exact .of_error rfl ⟨.refl _,rfl,hat.good,by simp⟩
    · intro s m h
      obtain ⟨c,hat,-⟩ := h.typed
      exact .of_error rfl ⟨.refl _,rfl,hat.good,by simp⟩
  | succ n ih => exact ⟨fun _ _ => ih.expr_succ,fun _ _ => ih.stmt_succ⟩

theorem Met.step {w' : Work} (h : Met runs r w m) (hs : Starts w m w' m') : Met runs r w' m' := by
  cases w with
  | program n ss => exact (safe runs r n).program_step h hs
  | stmts n ss => exact (safe runs r n).stmts_step h hs
  | stmt n s =>
    cases n with
    | zero => cases hs
    | succ n => exact (safe runs r n).stmt_step h hs
  | loop n condition body k => exact (safe runs r n).loop_step h hs
  | expr n e =>
    cases n with
    | zero => cases hs
    | succ n => exact (safe runs r n).expr_step h hs
  | exprs n es => exact (safe runs r n).exprs_step h hs
  | invoke n f paren vs => exact h.invoke_step hs
  | apply n f vs => exact h.apply_step hs
  | bind f i => cases hs
  | classDefinition name parent methods => cases hs

/-- Everything that a run comes to has been prepared for, if its start has been. -/
theorem Met.of_visits (hstart : Met runs r (.program r.budget r.program) r.machine)
    (h : Visits r w m) : Met runs r w m := by
  induction h with
  | start => exact hstart
  | step _ hs ih => exact ih.step hs

end Lox

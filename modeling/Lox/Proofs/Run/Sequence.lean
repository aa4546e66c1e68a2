import Lox.Proofs.Run.Agreement
import Lox.Proofs.Run.Course

/-! All that is done in the course of a run is done in some order, and what a heap has of receivers, superclasses
and classes is kept from then on. -/
namespace Lox

open Eval

variable {runs : List Run} {r : Run} {n : Nat} {m m₁ m₂ : Machine} {w : Work}

/-! ### Work without parts -/

theorem Eval.after_eq {α : Type} {x y : Eval α} (h : x m = y m₁) : x.after m = y.after m₁ := by
  simp only [Eval.after,h]

namespace Eval.Takes

/-- Work that has no parts. -/
theorem alone {α : Type} {x : Eval α} (hnone : ∀ w' m', ¬Starts w m w' m') (h : x.Idle m)
    (hopened : w.opened m = m.heap) : x.Takes (Part w m) m :=
  whole (h.mono fun _ _ ⟨_,_,hs,_⟩ => hnone _ _ hs) hopened

/-- What is left to do for a class when the scope of its methods is there. -/
theorem addClass {name : Token} (hname : name.IsName) (closure : ScopeId) (parent : Option ClassId)
    (ds : List FunctionDecl) : Eval.Idle (do
      let methods ← Eval.addMethods closure ds
      let c ← Eval.allocate (·.addClass ⟨name.lexeme,parent,.ofList methods⟩)
      let m ← get
      match m.heap.holder? m.scope name.lexeme with
      | some holder => changeHeap (·.define holder name.lexeme (.class c))
      | none => Eval.runtime (.undefinedVariable name.lexeme) name) m := by
  have hmethods := composes.addMethods (fun f k => .allocate (.addFunction k.heap f)) closure ds m
  refine bind_idle hmethods fun methods m₁ _ =>
    bind_idle (.allocate (.addClass m₁.heap _)) fun c m₂ _ => ?_
  refine after (y := match m₂.heap.holder? m₂.scope name.lexeme with
    | some holder => changeHeap (·.define holder name.lexeme (.class c))
    | none => Eval.runtime (.undefinedVariable name.lexeme) name) rfl rfl ?_
  split
  next holder _ => exact of_ok rfl (.define m₂.heap holder hname _)
  next => exact runtime _ name

end Eval.Takes

theorem Met.class_takes {name : Token} {parent : Option ClassId} {methods : List FunctionDecl}
    (h : Met runs r (.classDefinition name parent methods) m) :
    (Eval.defineClass name parent methods).Takes (Part (.classDefinition name parent methods) m) m := by
  obtain ⟨c,-,-,p,-,superclass,hpart,-⟩ := h.typed
  have hname : name.IsName := hpart.proper.1
  have hdefined : m.heap.Retains (m.heap.define m.scope name.lexeme .nil) := .define m.heap m.scope hname .nil
  cases parent with
  | none =>
    have hrest := Takes.addClass (m := { m with heap := m.heap.define m.scope name.lexeme .nil }) hname m.scope none
      methods
    have hall : m.heap.Retains ((Eval.defineClass name none methods).after m).heap := hdefined.trans hrest.retains
    exact Course.whole ((Course.of_retains hall).mono fun _ _ ⟨_,_,hs,_⟩ => by cases hs) (.refl _)
  | some k =>
    let s : Scope := ⟨(∅ : Bindings Value).insert "super" (.class k),some m.scope⟩
    let h₁ := ((m.heap.define m.scope name.lexeme .nil).addScope s).2
    have hrest := Takes.addClass (m := { m with heap := h₁ }) hname
      ⟨(m.heap.define m.scope name.lexeme .nil).scopes.size⟩ (some k) methods
    have hopens : m.heap.Retains h₁ := hdefined.trans (.addScope _ s)
    have hbehind : h₁.Retains ((Eval.defineClass name (some k) methods).after m).heap := hrest.retains
    exact Course.whole ((Course.of_retains hbehind).mono fun _ _ ⟨_,_,hs,_⟩ => by cases hs) hopens

theorem Course.binding (f : FunctionId) (i : InstanceId) : Course (Part (.bind f i) m) m.heap (m.binding f i).heap :=
  .whole ((Course.of_retains (.refl _)).mono fun _ _ ⟨_,_,hs,_⟩ => by cases hs) (.bind m.heap f i)

/-! ### Work with parts -/

/-- If a property is a method, it is bound. -/
theorem Eval.Takes.getProperty (v : Value) (name : Token) : (Eval.getProperty v name).Takes (fun w' m' => ∃ i f,
    v = .instance i ∧ m.heap.property? i name.lexeme = some (.method f) ∧ Part (.bind f i) m w' m') m := by
  cases v with
  | «instance» i =>
    refine after (getProperty_eq i name m) rfl ?_
    split
    next value hproperty =>
      refine (pure value).mono fun w' m' ⟨i',f,hi,hf,_⟩ => ?_
      obtain rfl := Value.instance.inj hi
      simp [hproperty] at hf
    next f hproperty =>
      refine Course.mono (Course.binding f i) fun w' m' ⟨i',f',hi,hf,hw⟩ => ?_
      obtain rfl := Value.instance.inj hi
      obtain rfl := Heap.Property.method.inj (Option.some.inj (hproperty.symm.trans hf))
      exact hw
    next hproperty =>
      refine (runtime (.undefinedProperty name.lexeme) name).mono fun w' m' ⟨i',f,hi,hf,_⟩ => ?_
      obtain rfl := Value.instance.inj hi
      simp [hproperty] at hf
  | _ => exact (runtime .propertyOfNonInstance name).mono fun w' m' ⟨_,_,hi,_⟩ => by cases hi

theorem Met.super_takes {id : ExprId} {keyword method : Token}
    (h : Met runs r (.expr (n + 1) (.super id keyword method)) m) :
    (Eval.superMethod id keyword method).Takes (Part (.expr (n + 1) (.super id keyword method)) m) m := by
  obtain ⟨c,hat,p,hp,hpart⟩ := h.typed
  obtain ⟨hrecorded,hclass⟩ := hpart.super (hat.accepted p hp)
  obtain ⟨d,k,i,hd,hsuper,hthis⟩ := hat.superclass hp hrecorded hclass
  refine .whole (.after (superMethod_eq keyword method hd hsuper hthis) rfl ?_) rfl
  cases hfound : m.heap.findMethod? k method.lexeme with
  | none =>
    refine (Takes.runtime (.undefinedProperty method.lexeme) method).mono ?_
    rintro w' m' ⟨_,_,hs,hw⟩
    cases hs with
    | super_method hd' hsuper' hthis' hf =>
      obtain rfl : d = _ := by simpa [hd] using hd'
      obtain rfl : k = _ := by simpa [hsuper] using hsuper'
      simp [hfound] at hf
  | some f =>
    let m₁ := m.note (.superFound method.lexeme (m.heap.getClass k).name keyword.line)
    refine Course.mono (Course.binding (m := m₁) f i) ?_
    rintro w' m' ⟨_,_,hs,hw⟩
    cases hs with
    | super_method hd' hsuper' hthis' hf =>
      obtain rfl : d = _ := by simpa [hd] using hd'
      obtain rfl : k = _ := by simpa [hsuper] using hsuper'
      obtain rfl : i = _ := by simpa [hthis] using hthis'
      obtain rfl : f = _ := by simpa [hfound] using hf
      exact hw

/-- With this budget, expressions and statements consist of their parts. -/
structure Sequenced (runs : List Run) (r : Run) (n : Nat) : Prop where
  expr : ∀ e m, Met runs r (.expr n e) m → (evaluate n e).Takes (Part (.expr n e) m) m
  stmt : ∀ s m, Met runs r (.stmt n s) m → (execute n s).Takes (Part (.stmt n s) m) m

namespace Sequenced

variable (hn : Sequenced runs r n)
include hn

/-! ### Sequences -/

theorem exprs {es : List Expr} (h : Met runs r (.exprs n es) m) :
    (evaluateEach (evaluate n) es).Takes (Part (.exprs n es) m) m := by
  induction es generalizing m with
  | nil => exact .alone (fun _ _ hs => by cases hs) (.pure _) rfl
  | cons e es ih =>
    refine .whole (.mono (.bind (hn.expr e m (h.step .exprs_head)) fun v m₁ hv =>
      .bind_idle (ih (h.step (.exprs_tail hv))) fun vs m₂ _ => .pure _) ?_) rfl
    rintro w' m' ⟨_,_,hs,hw⟩
    cases hs with
    | exprs_head => exact .inl hw
    | exprs_tail hv => exact .inr ⟨_,_,hv,hw⟩

theorem stmts {ss : List Stmt} (h : Met runs r (.stmts n ss) m) :
    (executeEach (execute n) ss).Takes (Part (.stmts n ss) m) m := by
  induction ss generalizing m with
  | nil => exact .alone (fun _ _ hs => by cases hs) (.pure _) rfl
  | cons s ss ih =>
    refine .whole (.mono (.bind (D := fun flow m₁ w' m' => flow = .normal ∧ Part (.stmts n ss) m₁ w' m')
      (hn.stmt s m (h.step .stmts_head)) fun flow m₁ hflow => ?_) ?_) rfl
    · cases flow with
      | normal => exact (ih (h.step (.stmts_tail hflow))).mono fun _ _ hw => hw.2
      | returned v => exact (Takes.pure _).mono fun _ _ hw => by cases hw.1
    · rintro w' m' ⟨_,_,hs,hw⟩
      cases hs with
      | stmts_head => exact .inl hw
      | stmts_tail hflow => exact .inr ⟨_,_,hflow,rfl,hw⟩

theorem loop {c : Expr} {s : Stmt} {k : Nat} (h : Met runs r (.loop n c s k) m) :
    (whileLoop (evaluate n c) (execute n s) k).Takes (Part (.loop n c s k) m) m := by
  induction k generalizing m with
  | zero => exact .alone (fun _ _ hs => by cases hs) .exhausted rfl
  | succ k ih =>
    refine .whole (.mono (.bind (D := fun v m₁ w' m' => v.isTruthy = true ∧ (Part (.stmt n s) m₁ w' m' ∨
      ∃ flow m₂, execute n s m₁ = .ok flow m₂ ∧ flow = .normal ∧ Part (.loop n c s k) m₂ w' m'))
      (hn.expr c m (h.step .loop_condition)) fun v m₁ hv => .ite (fun htrue => ?_) fun hfalse => ?_) ?_) rfl
    · have hround := hn.stmt s m₁ (h.step (.loop_body hv htrue))
      refine .mono (.bind hround (D := fun flow m₂ w' m' => flow = .normal ∧ Part (.loop n c s k) m₂ w' m')
        fun flow m₂ hflow => ?_) fun _ _ hw => hw.2
      cases flow with
      | normal => exact (ih (h.step (.loop_again hv htrue hflow))).mono fun _ _ hw => hw.2
      | returned w => exact (Takes.pure _).mono fun _ _ hw => by cases hw.1
    · exact (Takes.pure _).mono fun _ _ hw => hfalse hw.1
    · rintro w' m' ⟨_,_,hs,hw⟩
      cases hs with
      | loop_condition => exact .inl hw
      | loop_body hv htrue => exact .inr ⟨_,_,hv,htrue,.inl hw⟩
      | loop_again hv htrue hflow => exact .inr ⟨_,_,hv,htrue,.inr ⟨_,_,hflow,rfl,hw⟩⟩

theorem program {ss : List Stmt} (h : Met runs r (.program n ss) m) :
    (Machine.executeProgram n ss).Takes (Part (.program n ss) m) m := by
  induction ss generalizing m with
  | nil => exact .alone (fun _ _ hs => by cases hs) (.pure _) rfl
  | cons s ss ih =>
    refine .whole (.mono (.bind (hn.stmt s m (h.step .program_head)) fun flow m₁ hflow =>
      ih (h.step (.program_tail hflow))) ?_) rfl
    rintro w' m' ⟨_,_,hs,hw⟩
    cases hs with
    | program_head => exact .inl hw
    | program_tail hflow => exact .inr ⟨_,_,hflow,hw⟩

/-! ### Calls -/

theorem apply {f : FunctionId} {vs : List Value} (h : Met runs r (.apply n f vs) m) :
    (Eval.apply (executeEach (execute n)) f vs).Takes (Part (.apply n f vs) m) m := by
  let m₁ : Machine := { m.note (.functionCalled (m.heap.getFunction f).name) with heap := (m.calling f vs).heap }
  have hbody := hn.stmts (h.step .body)
  have hrest : Takes _ (Eval.inScope (m.calling f vs).scope (executeEach (execute n)
      (m.heap.getFunction f).declaration.body) >>= Eval.callResult (m.heap.getFunction f)) m₁ :=
    .bind_idle (.inScope hbody) fun flow m₂ _ => Takes.composes.callResult _ flow m₂
  refine Course.whole (Course.mono hrest ?_) (.addScope m.heap _)
  rintro w' m' ⟨_,_,hs,hw⟩
  cases hs with
  | body => exact hw

theorem invoke {callee : Value} {paren : Token} {vs : List Value} (h : Met runs r (.invoke n callee paren vs) m) :
    (Eval.invoke (executeEach (execute n)) callee paren vs).Takes (Part (.invoke n callee paren vs) m) m := by
  cases callee with
  | native f => exact .alone (fun _ _ hs => by cases hs) (.of_ok rfl (.refl _)) rfl
  | function f =>
    refine .whole ((hn.apply (h.step .function)).mono ?_) rfl
    rintro w' m' ⟨_,_,hs,hw⟩
    cases hs with
    | function => exact hw
  | «class» c =>
    have hmade : m.heap.Retains (m.constructing c).heap := .addInstance m.heap _
    cases hfound : (m.constructing c).heap.findMethod? c "init" with
    | none =>
      refine .alone (fun w' m' hs => ?_) (.of_ok (construct_none _ vs hfound) hmade) rfl
      cases hs with
      | initializer hf | construction hf => simp [hfound] at hf
    | some f =>
      let i : InstanceId := ⟨m.heap.instances.size⟩
      have happly := (hn.apply (h.step (.construction hfound))).bind_idle (f := fun _ => return Value.instance i)
        fun _ m₁ _ => .pure _
      have hall := ((Course.of_retains hmade).trans (Course.binding f i)).trans happly
      rw [← Eval.after_eq (construct_some _ vs hfound)] at hall
      refine Takes.whole (Course.mono hall ?_) rfl
      rintro w' m' ⟨_,_,hs,hw⟩
      cases hs with
      | initializer hf =>
        obtain rfl := Option.some.inj (hfound.symm.trans hf)
        exact .inl (.inr hw)
      | construction hf =>
        obtain rfl := Option.some.inj (hfound.symm.trans hf)
        exact .inr hw
  | _ => exact .alone (fun _ _ hs => by cases hs) (.runtime .notCallable paren) rfl

/-- Of a call that is allowed, the work is that of the called value. -/
theorem call {e : Expr} {paren : Token} {es : List Expr} {f : Value} {vs : List Value}
    (h : Met runs r (.expr (n + 1) (.call e paren es)) m) (he : evaluate n e m = .ok f m₁)
    (hes : evaluateEach (evaluate n) es m₁ = .ok vs m₂) :
    (Eval.call (executeEach (execute n)) f paren vs).Takes (fun w' m' => ∃ name,
      m₂.heap.callable? f = some (name,vs.length) ∧ m₂.depth < Machine.maxDepth ∧
        Part (.invoke n f paren vs) m₂.deeper w' m') m₂ := by
  refine .after (call_eq _ f paren vs m₂) rfl ?_
  split
  next hnone =>
    refine (Takes.runtime .notCallable paren).mono fun w' m' ⟨name,hf,_⟩ => ?_
    simp [hnone] at hf
  next name arity hcallable =>
    refine .ite (fun harity => ?_) fun harity => .ite (fun hdepth => ?_) fun hdepth => ?_
    · refine (Takes.runtime (.arity arity vs.length) paren).mono fun w' m' ⟨name,hf,_⟩ => ?_
      simp only [hcallable,Option.some.injEq,Prod.mk.injEq] at hf
      exact harity hf.2.symm
    · exact Takes.mono (Takes.of_error rfl (.refl _)) fun w' m' ⟨_,_,hless,_⟩ => Nat.not_le_of_lt hless hdepth
    · obtain rfl : vs.length = arity := Decidable.not_not.mp harity
      have hstarted := h.step (.invoke he hes hcallable (Nat.lt_of_not_le hdepth))
      exact .nested ((hn.invoke hstarted).mono fun w' m' ⟨_,_,_,hw⟩ => hw)

/-! ### Expressions -/

theorem expr_succ (e : Expr) (m : Machine) (h : Met runs r (.expr (n + 1) e) m) :
    (evaluate (n + 1) e).Takes (Part (.expr (n + 1) e) m) m := by
  cases e with
  | literal l => exact .alone (fun _ _ hs => by cases hs) (.pure l.value) rfl
  | grouping inner =>
    refine .whole ((hn.expr inner m (h.step .grouping)).mono ?_) rfl
    rintro w' m' ⟨_,_,hs,hw⟩
    cases hs with
    | grouping => exact hw
  | unary op right =>
    refine .whole (.mono (.bind_idle (hn.expr right m (h.step .unary)) fun v m₁ _ =>
      Takes.composes.outcome (applyUnary op v) m₁) ?_) rfl
    rintro w' m' ⟨_,_,hs,hw⟩
    cases hs with
    | unary => exact hw
  | binary left op right =>
    refine .whole (.mono (.bind (hn.expr left m (h.step .binary_left)) fun v m₁ hv =>
      .bind_idle (hn.expr right m₁ (h.step (.binary_right hv))) fun w m₂ _ =>
        Takes.composes.outcome (applyBinary op v w) m₂) ?_) rfl
    rintro w' m' ⟨_,_,hs,hw⟩
    cases hs with
    | binary_left => exact .inl hw
    | binary_right hv => exact .inr ⟨_,_,hv,hw⟩
  | logical left op right =>
    refine .whole (.mono (.bind
      (D := fun v m₁ w' m' => shortCircuits op v = false ∧ Part (.expr n right) m₁ w' m')
      (hn.expr left m (h.step .logical_left)) fun v m₁ hv => .ite (fun hstop => ?_) fun hgoes => ?_) ?_) rfl
    · exact (Takes.pure v).mono fun _ _ hw => by simp [hstop] at hw
    · have hcircuits : shortCircuits op v = false := by simpa using hgoes
      exact (hn.expr right m₁ (h.step (.logical_right hv hcircuits))).mono fun _ _ hw => hw.2
    · rintro w' m' ⟨_,_,hs,hw⟩
      cases hs with
      | logical_left => exact .inl hw
      | logical_right hv hcircuits => exact .inr ⟨_,_,hv,hcircuits,hw⟩
  | ternary c a b =>
    refine .whole (.mono (.bind (D := fun v m₁ w' m' => (v.isTruthy = true ∧ Part (.expr n a) m₁ w' m') ∨
      (v.isTruthy = false ∧ Part (.expr n b) m₁ w' m')) (hn.expr c m (h.step .ternary_condition)) fun v m₁ hv =>
        .ite (fun htrue => ?_) fun hfalse => ?_) ?_) rfl
    · exact (hn.expr a m₁ (h.step (.ternary_true hv htrue))).mono fun _ _ hw => by simpa [htrue] using hw
    · have hfalse' : v.isTruthy = false := by simpa using hfalse
      exact (hn.expr b m₁ (h.step (.ternary_false hv hfalse'))).mono fun _ _ hw => by simpa [hfalse'] using hw
    · rintro w' m' ⟨_,_,hs,hw⟩
      cases hs with
      | ternary_condition => exact .inl hw
      | ternary_true hv htrue => exact .inr ⟨_,_,hv,.inl ⟨htrue,hw⟩⟩
      | ternary_false hv hfalse => exact .inr ⟨_,_,hv,.inr ⟨hfalse,hw⟩⟩
  | «variable» id name => exact .alone (fun _ _ hs => by cases hs) (Takes.composes.lookUp id name m) rfl
  | assign id name e =>
    obtain ⟨c,-,p,-,hpart⟩ := h.typed
    refine .whole (.mono (.bind_idle (hn.expr e m (h.step .assign_value)) fun v m₁ _ =>
      .bind_idle (.assign hpart.assign.2.1 id v) fun _ _ _ => .pure v) ?_) rfl
    rintro w' m' ⟨_,_,hs,hw⟩
    cases hs with
    | assign_value => exact hw
  | call callee paren es =>
    refine .whole (.mono (.bind (hn.expr callee m (h.step .callee)) fun f m₁ hf =>
      .bind (hn.exprs (h.step (.arguments hf))) fun vs m₂ hvs => hn.call h hf hvs) ?_) rfl
    rintro w' m' ⟨_,_,hs,hw⟩
    cases hs with
    | callee => exact .inl hw
    | arguments hf => exact .inr ⟨_,_,hf,.inl hw⟩
    | invoke hf hvs hcallable hdepth => exact .inr ⟨_,_,hf,.inr ⟨_,_,hvs,_,hcallable,hdepth,hw⟩⟩
  | get object name =>
    refine .whole (.mono (.bind (hn.expr object m (h.step .get_object)) fun v m₁ hv => .getProperty v name) ?_) rfl
    rintro w' m' ⟨_,_,hs,hw⟩
    cases hs with
    | get_object => exact .inl hw
    | get_method hv hf => exact .inr ⟨_,_,hv,_,_,rfl,hf,hw⟩
  | set object name e =>
    refine .whole (.mono (.bind (D := fun v m₁ w' m' => (∃ i, v = .instance i) ∧ Part (.expr n e) m₁ w' m')
      (hn.expr object m (h.step .set_object)) fun v m₁ hv => ?_) ?_) rfl
    · cases v with
      | «instance» i =>
        refine .mono (.bind_idle (hn.expr e m₁ (h.step (.set_value hv))) fun w m₂ _ =>
          .of_ok rfl (.setField m₂.heap i name.lexeme w)) fun _ _ hw => hw.2
      | _ => exact (Takes.runtime .fieldOfNonInstance name).mono fun _ _ hw => by simp at hw
    · rintro w' m' ⟨_,_,hs,hw⟩
      cases hs with
      | set_object => exact .inl hw
      | set_value hv => exact .inr ⟨_,_,hv,⟨_,rfl⟩,hw⟩
  | this id keyword => exact .alone (fun _ _ hs => by cases hs) (Takes.composes.lookUp id keyword m) rfl
  | super id keyword method => exact h.super_takes

/-! ### Statements -/

theorem superclassOf {name : Token} {e : Option Expr} {methods : List FunctionDecl}
    (h : Met runs r (.stmt (n + 1) (.class name e methods)) m) :
    (Eval.superclassOf (evaluate n) name e).Takes (fun w' m' => ∃ parent, e = some parent ∧
      Part (.expr n parent) (m.note (.classDefined name.lexeme)) w' m') (m.note (.classDefined name.lexeme)) := by
  cases e with
  | none => exact (Takes.pure none).mono fun _ _ ⟨_,heq,_⟩ => by cases heq
  | some e =>
    refine .mono (.bind_idle (hn.expr e _ (h.step .superclass)) fun v m₁ _ => ?_) fun w' m' ⟨e',heq,hw⟩ => ?_
    · cases v with
      | «class» c => exact .pure (some c)
      | _ => cases e <;> exact .runtime _ _
    · obtain rfl := Option.some.inj heq
      exact hw

theorem classStatement {name : Token} {e : Option Expr} {methods : List FunctionDecl}
    (h : Met runs r (.stmt (n + 1) (.class name e methods)) m) :
    (execute (n + 1) (.class name e methods)).Takes (Part (.stmt (n + 1) (.class name e methods)) m) m := by
  let noted := m.note (.classDefined name.lexeme)
  have hdefined (parent : Option ClassId) (m₁ : Machine)
      (hparent : Eval.superclassOf (evaluate n) name e noted = .ok parent m₁) :
      (Eval.defineClass name parent methods).Takes (Part (.classDefinition name parent methods) m₁) m₁ := by
    cases e with
    | none =>
      obtain ⟨rfl,rfl⟩ := EStateM.Result.ok.inj hparent
      exact (h.step .class_alone).class_takes
    | some e =>
      obtain ⟨k,rfl,he⟩ := superclassOf_ok hparent
      exact (h.step (.class_derived he)).class_takes
  have htakes := (hn.superclassOf h).bind fun parent m₁ hparent =>
    (hdefined parent m₁ hparent).bind_idle fun _ _ _ => .pure Flow.normal
  refine .whole (.after rfl rfl (htakes.mono ?_)) rfl
  rintro w' m' ⟨_,_,hs,hw⟩
  cases hs with
  | superclass => exact .inl ⟨_,rfl,hw⟩
  | class_alone => exact .inr ⟨none,_,rfl,hw⟩
  | class_derived he => exact .inr ⟨some _,_,superclassOf_class name he,hw⟩

theorem stmt_succ (s : Stmt) (m : Machine) (h : Met runs r (.stmt (n + 1) s) m) :
    (execute (n + 1) s).Takes (Part (.stmt (n + 1) s) m) m := by
  cases s with
  | expression e =>
    refine .whole (.mono (.bind_idle (hn.expr e m (h.step .expression)) fun _ _ _ => .pure Flow.normal) ?_) rfl
    rintro w' m' ⟨_,_,hs,hw⟩
    cases hs with
    | expression => exact hw
  | print e =>
    refine .whole (.mono (.bind_idle (hn.expr e m (h.step .print)) fun v m₁ _ => ?_) ?_) rfl
    · exact .after (y := Eval.print (m₁.heap.display v) >>= fun _ => return Flow.normal) rfl rfl
        (.bind_idle (.print _) fun _ _ _ => .pure _)
    · rintro w' m' ⟨_,_,hs,hw⟩
      cases hs with
      | print => exact hw
  | var name initializer =>
    obtain ⟨c,-,-,p,-,hpart⟩ := h.typed
    have hdefine (v : Value) (m₁ : Machine) : Eval.Idle (do
        Eval.note (.variableDefined name.lexeme)
        Eval.define name.lexeme v
        return Flow.normal) m₁ := .of_ok rfl (.define m₁.heap m₁.scope hpart.proper.1 v)
    cases initializer with
    | none => exact .alone (fun _ _ hs => by cases hs) (hdefine .nil m) rfl
    | some e =>
      refine .whole (.mono (.bind_idle (hn.expr e m (h.step .var)) fun v m₁ _ => hdefine v m₁) ?_) rfl
      rintro w' m' ⟨_,_,hs,hw⟩
      cases hs with
      | var => exact hw
  | block body =>
    have hbody := hn.stmts (h.step .block)
    have hinside : Takes _ (Eval.inScope ⟨m.heap.scopes.size⟩ (executeEach (execute n) body))
        { m with heap := (m.inNew ⟨∅,some m.scope⟩).heap } := .inScope hbody
    refine Course.whole (Course.mono hinside ?_) (.addScope m.heap _)
    rintro w' m' ⟨_,_,hs,hw⟩
    cases hs with
    | block => exact hw
  | branch c s t =>
    refine .whole (.mono (.bind (D := fun v m₁ w' m' => (v.isTruthy = true ∧ Part (.stmt n s) m₁ w' m') ∨
      (v.isTruthy = false ∧ ∃ b, t = some b ∧ Part (.stmt n b) m₁ w' m'))
      (hn.expr c m (h.step .branch_condition)) fun v m₁ hv => .ite (fun htrue => ?_) fun hfalse => ?_) ?_) rfl
    · exact (hn.stmt s m₁ (h.step (.branch_then hv htrue))).mono fun _ _ hw => by simpa [htrue] using hw
    · have hfalse' : v.isTruthy = false := by simpa using hfalse
      cases t with
      | none => exact (Takes.pure Flow.normal).mono fun _ _ hw => by simp [hfalse'] at hw
      | some b =>
        exact (hn.stmt b m₁ (h.step (.branch_else hv hfalse'))).mono fun _ _ hw => by simpa [hfalse'] using hw
    · rintro w' m' ⟨_,_,hs,hw⟩
      cases hs with
      | branch_condition => exact .inl hw
      | branch_then hv htrue => exact .inr ⟨_,_,hv,.inl ⟨htrue,hw⟩⟩
      | branch_else hv hfalse => exact .inr ⟨_,_,hv,.inr ⟨hfalse,_,rfl,hw⟩⟩
  | loop c s =>
    refine .whole ((hn.loop (h.step .loop)).mono ?_) rfl
    rintro w' m' ⟨_,_,hs,hw⟩
    cases hs with
    | loop => exact hw
  | function d =>
    obtain ⟨c,-,-,p,-,hpart⟩ := h.typed
    have hname : d.name.IsName := hpart.proper.declared_isName rfl
    exact .alone (fun _ _ hs => by cases hs)
      (.of_ok rfl ((Heap.Retains.addFunction m.heap _).trans (.define _ m.scope hname _))) rfl
  | «return» keyword value =>
    cases value with
    | none => exact .alone (fun _ _ hs => by cases hs) (.pure _) rfl
    | some e =>
      refine .whole (.mono (.bind_idle (hn.expr e m (h.step .returning)) fun v _ _ => .pure (Flow.returned v)) ?_) rfl
      rintro w' m' ⟨_,_,hs,hw⟩
      cases hs with
      | returning => exact hw
  | «class» name e methods => exact hn.classStatement h

end Sequenced

theorem sequenced (runs : List Run) (r : Run) (n : Nat) : Sequenced runs r n := by
  induction n with
  | zero => exact ⟨fun _ _ _ => .alone (fun _ _ hs => by cases hs) .exhausted rfl,
      fun _ _ _ => .alone (fun _ _ hs => by cases hs) .exhausted rfl⟩
  | succ n ih => exact ⟨ih.expr_succ,ih.stmt_succ⟩

end Lox

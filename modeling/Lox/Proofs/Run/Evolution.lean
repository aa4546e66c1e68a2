import Lox.Proofs.Run.Apply
import Lox.Proofs.Run.Frame
import Lox.Proofs.Run.Sequence

/-! What becomes of a heap in the course of a run. There are few ways to change it. All of them leave the objects that
are there what they are, and classes come from class declarations only. -/
namespace Lox

open Eval

/-- Functions that have been made of the declarations of a class, each under its name. -/
def Heap.Methods (h : Heap) (closure : ScopeId) (ds : List FunctionDecl) (methods : List (String × FunctionId)) : Prop :=
  List.Forall₂ (fun d p => p.1 = d.name.lexeme ∧ p.2.index < h.functions.size ∧
    h.getFunction p.2 = ⟨d,closure,d.name.lexeme == "init"⟩) ds methods

/-- A scope that new scopes and functions may lie in: the global one, one that is there, the one that some work runs
in, and the one that a function closes over. -/
inductive Run.Offers (r : Run) (h : Heap) : ScopeId → Prop
  | globals : Offers r h Heap.globals
  | there {k} (hk : k.index < h.scopes.size) : Offers r h k
  | current {w m} (hvisits : Visits r w m) (hsize : m.heap.scopes.size ≤ h.scopes.size) : Offers r h m.scope
  | closure {f} (hf : f.index < h.functions.size) : Offers r h (h.getFunction f).closure

namespace Run

variable {r : Run} {h h' : Heap}

theorem Offers.extends (hh : h.Extends h') {k : ScopeId} (hk : r.Offers h k) : r.Offers h' k := by
  cases hk with
  | globals => exact .globals
  | there hk => exact .there (Nat.lt_of_lt_of_le hk hh.scopes)
  | current hvisits hsize => exact .current hvisits (Nat.le_trans hsize hh.scopes)
  | closure hf => exact hh.function _ hf ▸ .closure (Nat.lt_of_lt_of_le hf hh.functions)

/-- A function that is not there closes over the global scope. -/
theorem offers_closure (r : Run) (h : Heap) (f : FunctionId) : r.Offers h (h.getFunction f).closure := by
  by_cases hf : f.index < h.functions.size
  · exact .closure hf
  · have hdefault : h.getFunction f = default := by
      simp only [Heap.getFunction,Array.getElem?_eq_none (Nat.le_of_not_lt hf),Option.getD_none]
    rw [hdefault]
    exact .globals

end Run

/-- The second heap comes from the first one in the course of the run. -/
inductive Heap.Evolves (r : Run) (h : Heap) : Heap → Prop
  | refl : Evolves r h h
  | define {h'} (before : Evolves r h h') (i : ScopeId) (name : String) (v : Value) : Evolves r h (h'.define i name v)
  | addScope {h' k} (before : Evolves r h h') (b : Bindings Value) (hk : r.Offers h' k) :
    Evolves r h (h'.addScope ⟨b,some k⟩).2
  | addFunction {h'} {f : Function} (before : Evolves r h h') (hf : r.Offers h' f.closure) :
    Evolves r h (h'.addFunction f).2
  | addClass {h' name parent ds closure methods m} (before : Evolves r h h')
    (hvisits : Visits r (.classDefinition name parent ds) m) (hsize : h'.classes.size = m.heap.classes.size)
    (hmethods : h'.Methods closure ds methods) :
    Evolves r h (h'.addClass ⟨name.lexeme,parent,.ofList methods⟩).2
  | addInstance {h' n c paren vs m} (before : Evolves r h h') (hvisits : Visits r (.invoke n (.class c) paren vs) m)
    (hsize : m.heap.classes.size ≤ h'.classes.size) : Evolves r h (h'.addInstance ⟨c,∅⟩).2
  | setField {h'} (before : Evolves r h h') (i : InstanceId) (name : String) (v : Value) :
    Evolves r h (h'.setField i name v)

/-- Objects have been added, and what was there before has kept what it was made with, its names and its fields. -/
structure Heap.Kept (h h' : Heap) : Prop extends h.Grows h' where
  getClass : ∀ c, c.index < h.classes.size → h'.getClass c = h.getClass c
  ofClass : ∀ i, i.index < h.instances.size → (h'.getInstance i).ofClass = (h.getInstance i).ofClass
  fields : ∀ i name, i.index < h.instances.size → (h.getInstance i).fields.contains name →
    (h'.getInstance i).fields.contains name

namespace Heap.Kept

variable {h h₁ h₂ : Heap}

theorem refl (h : Heap) : h.Kept h := ⟨.refl h,fun _ _ => rfl,fun _ _ => rfl,fun _ _ _ hname => hname⟩

theorem trans (a : h.Kept h₁) (b : h₁.Kept h₂) : h.Kept h₂ where
  toGrows := a.toGrows.trans b.toGrows
  getClass c hc := (b.getClass c (Nat.lt_of_lt_of_le hc a.classes)).trans (a.getClass c hc)
  ofClass i hi := (b.ofClass i (Nat.lt_of_lt_of_le hi a.instances)).trans (a.ofClass i hi)
  fields i name hi hname := b.fields i name (Nat.lt_of_lt_of_le hi a.instances) (a.fields i name hi hname)

/-- Classes and instances are the same. -/
theorem of_grows (hgrows : h.Grows h₁) (hclasses : h₁.classes = h.classes) (hinstances : h₁.instances = h.instances) :
    h.Kept h₁ where
  toGrows := hgrows
  getClass c _ := by simp only [Heap.getClass,hclasses]
  ofClass i _ := by simp only [getInstance,hinstances]
  fields i name _ hname := by simpa only [getInstance,hinstances] using hname

theorem addClass (h : Heap) (k : Class) : h.Kept (h.addClass k).2 where
  toGrows := .addClass h k
  getClass c hc := by rw [getClass_addClass,if_neg (Nat.ne_of_lt hc)]
  ofClass _ _ := rfl
  fields _ _ _ hname := hname

theorem addInstance (h : Heap) (o : Instance) : h.Kept (h.addInstance o).2 where
  toGrows := .addInstance h o
  getClass _ _ := rfl
  ofClass i hi := by rw [getInstance_addInstance,if_neg (Nat.ne_of_lt hi)]
  fields i name hi hname := by rwa [getInstance_addInstance,if_neg (Nat.ne_of_lt hi)]

theorem setField (h : Heap) (i : InstanceId) (name : String) (v : Value) : h.Kept (h.setField i name v) := by
  have hframed : h.Framed none (h.setField i name v) := .setField h i name v
  refine ⟨.setField h i name v,fun _ _ => rfl,hframed.ofClass,fun j other hj hother => ?_⟩
  by_cases hij : i = j
  · subst hij
    rw [getInstance_setField hj,if_pos rfl]
    simp [Bindings.contains_insert,hother]
  · have hindex : i.index ≠ j.index := fun heq => hij (congrArg InstanceId.mk heq)
    simpa [getInstance,Heap.setField,Array.getElem?_modify,hindex] using hother

theorem bind (h : Heap) (f : FunctionId) (i : InstanceId) : h.Kept (h.bind f i).2 :=
  .of_grows (.bind h f i) rfl rfl

end Heap.Kept

namespace Heap.Evolves

variable {r : Run} {h h₁ h₂ : Heap}

theorem trans (a : h.Evolves r h₁) (b : h₁.Evolves r h₂) : h.Evolves r h₂ := by
  induction b with
  | refl => exact a
  | define _ i name v ih => exact ih.define i name v
  | addScope _ b hk ih => exact ih.addScope b hk
  | addFunction _ hf ih => exact ih.addFunction hf
  | addClass _ hvisits hsize hmethods ih => exact ih.addClass hvisits hsize hmethods
  | addInstance _ hvisits hsize ih => exact ih.addInstance hvisits hsize
  | setField _ i name v ih => exact ih.setField i name v

theorem of_eq (heq : h₁ = h) : h.Evolves r h₁ := heq ▸ .refl

theorem bind (a : h.Evolves r h₁) (f : FunctionId) (i : InstanceId) : h.Evolves r (h₁.bind f i).2 :=
  (a.addScope _ (r.offers_closure h₁ f)).addFunction (.there (by simp [Heap.addScope]))

theorem kept (a : h.Evolves r h₁) : h.Kept h₁ := by
  induction a with
  | refl => exact .refl h
  | @define h' _ i name v ih => exact ih.trans (.of_grows (.define h' i name v) rfl rfl)
  | @addScope h' _ _ b _ ih => exact ih.trans (.of_grows (.addScope h' _) rfl rfl)
  | @addFunction h' f _ _ ih => exact ih.trans (.of_grows (.addFunction h' f) rfl rfl)
  | addClass _ _ _ _ ih => exact ih.trans (.addClass _ _)
  | addInstance _ _ _ ih => exact ih.trans (.addInstance _ _)
  | setField _ i name v ih => exact ih.trans (.setField _ i name v)

end Heap.Evolves

/-- Whatever the computation gives, the heap that it leaves has come from the one that it started on. -/
def Eval.Evolves {α : Type} (r : Run) (x : Eval α) (m : Machine) : Prop := m.heap.Evolves r (x.after m).heap

namespace Eval.Evolves

variable {α β : Type} {r : Run} {x : Eval α} {f : α → Eval β} {m m₁ : Machine}

theorem of_ok {a : α} (hx : x m = .ok a m₁) (h : m.heap.Evolves r m₁.heap) : x.Evolves r m := by
  simpa only [Eval.Evolves,Eval.after,hx] using h

theorem of_error {halt : Halt} (hx : x m = .error halt m₁) (h : m.heap.Evolves r m₁.heap) : x.Evolves r m := by
  simpa only [Eval.Evolves,Eval.after,hx] using h

theorem ok {a : α} (h : x.Evolves r m) (hx : x m = .ok a m₁) : m.heap.Evolves r m₁.heap := by
  simpa only [Eval.Evolves,Eval.after,hx] using h

/-- The heap is the same when another computation takes over. -/
theorem after {y : Eval α} (hx : x m = y m₁) (hheap : m₁.heap = m.heap) (h : y.Evolves r m₁) : x.Evolves r m := by
  simp only [Eval.Evolves,Eval.after_eq hx] at h ⊢
  rwa [hheap] at h

end Eval.Evolves

namespace Heap.Evolves

variable {α β γ : Type} {r : Run} {x : Eval α} {f : α → Eval β} {y : Eval γ} {a : α} {m m₁ m₂ : Machine}

/-- What follows a computation. -/
theorem behind (hf : ∀ a m₁, x m = .ok a m₁ → (f a).Evolves r m₁) :
    (x.after m).heap.Evolves r ((x >>= f).after m).heap := by
  cases hx : x m with
  | ok a m₁ =>
    rw [Eval.after_eq (bind_of_ok hx f)]
    simp only [Eval.after,hx]
    exact hf a m₁ hx
  | error halt m₁ =>
    simp only [Eval.after,hx,bind_of_error hx f]
    exact .refl

/-- What is done later than a computation that has given a value. -/
theorem later (hx : x m = .ok a m₁) (h : (y.after m₂).heap.Evolves r ((f a).after m₁).heap) :
    (y.after m₂).heap.Evolves r ((x >>= f).after m).heap := by
  rwa [Eval.after_eq (bind_of_ok hx f)]

end Heap.Evolves

namespace Eval.Evolves

variable {α β : Type} {r : Run} {x : Eval α} {f : α → Eval β} {m m₁ : Machine}

theorem bind (hx : x.Evolves r m) (hf : ∀ a m₁, x m = .ok a m₁ → (f a).Evolves r m₁) : (x >>= f).Evolves r m :=
  Heap.Evolves.trans hx (.behind hf)

theorem ite {c : Prop} [Decidable c] {y : Eval α} (hx : c → x.Evolves r m) (hy : ¬c → y.Evolves r m) :
    (if c then x else y).Evolves r m := by
  split
  next h => exact hx h
  next h => exact hy h

theorem inScope {i : ScopeId} (h : x.Evolves r { m with scope := i }) : (inScope i x).Evolves r m := by
  rw [Eval.Evolves,after_inScope]
  exact h

theorem inNew {b : Bindings Value} {k : ScopeId} (hk : r.Offers m.heap k) (h : x.Evolves r (m.inNew ⟨b,some k⟩)) :
    (inNew ⟨b,some k⟩ x).Evolves r m := by
  let s : Scope := ⟨b,some k⟩
  have hx : Eval.inNew s x m = Eval.inScope (m.inNew s).scope x { m with heap := (m.inNew s).heap } := rfl
  rw [Eval.Evolves,Eval.after_eq hx,after_inScope]
  exact (Heap.Evolves.refl.addScope b hk).trans h

theorem nested (h : x.Evolves r m.deeper) : (nested x).Evolves r m := by
  rw [Eval.Evolves,after_nested]
  exact h

/-! ### Elementary computations -/

theorem pure (a : α) : (pure a : Eval α).Evolves r m := of_ok rfl .refl

theorem note (e : Event) : (note e).Evolves r m := of_ok rfl .refl

theorem raise (e : Error) : (raise e : Eval α).Evolves r m := of_error rfl .refl

theorem stop (e : Error) : (stop e : Eval α).Evolves r m := of_error rfl .refl

theorem runtime (fault : RuntimeFault) (found : Token) : (runtime fault found : Eval α).Evolves r m := raise _

theorem exhausted : (exhausted : Eval α).Evolves r m := of_error rfl .refl

theorem bindMethod (f : FunctionId) (i : InstanceId) : (Eval.allocate (·.bind f i)).Evolves r m :=
  of_ok rfl (.bind .refl f i)

theorem define (name : String) (v : Value) : (define name v).Evolves r m :=
  of_ok rfl (.define .refl m.scope name v)

theorem print (text : String) : (print text).Evolves r m := by
  refine .of_eq ?_
  rw [after_print]

/-! ### Variables, properties and calls -/

theorem composes (r : Run) : Composes fun x => ∀ m, x.Evolves r m where
  pure a _ := pure a
  bind hx hf m := bind (hx m) fun a m₁ _ => hf a m₁
  get hf _ m := hf m m
  note e _ := note e
  raise e _ := raise e
  bindMethod f i _ := bindMethod f i

/-- When the value of a superclass expression is there. -/
theorem superclass (name : Token) (e : Expr) (v : Value) : Eval.Evolves r (match v with
    | .class c => return some c
    | _ => match e with
      | .variable _ parent => Eval.runtime .superclassNotClass parent
      | _ => Eval.runtime .superclassNotClass name : Eval (Option ClassId)) m := by
  cases v with
  | «class» c => exact pure _
  | _ => cases e <;> exact runtime _ _

theorem assign (id : ExprId) (name : Token) (v : Value) : (assign id name v).Evolves r m := by
  rcases target_cases id name m with ⟨j,htarget,-⟩ | ⟨e,htarget⟩
  · exact of_ok (assign_ok htarget v) (.define .refl j name.lexeme v)
  · exact after (assign_raise htarget v) rfl (raise e)

end Eval.Evolves

/-! ### Classes -/

theorem Heap.Methods.extends {h h' : Heap} (hh : h.Extends h') {closure : ScopeId} {ds : List FunctionDecl}
    {methods : List (String × FunctionId)} (hmethods : h.Methods closure ds methods) : h'.Methods closure ds methods :=
  hmethods.imp fun _ p ⟨hname,hlt,hp⟩ =>
    ⟨hname,Nat.lt_of_lt_of_le hlt hh.functions,(hh.function p.2 hlt).trans hp⟩

/-- The methods of a class are made one after the other. -/
theorem addMethods_made {r : Run} {closure : ScopeId} (ds : List FunctionDecl) {m : Machine}
    (hclosure : r.Offers m.heap closure) : ∃ methods m₁,
    addMethods closure ds m = .ok methods m₁ ∧ m.heap.Evolves r m₁.heap ∧ m₁.heap.classes = m.heap.classes ∧
      m₁.heap.Methods closure ds methods := by
  induction ds generalizing m with
  | nil => exact ⟨[],m,rfl,.refl,rfl,.nil⟩
  | cons d ds ih =>
    let f : Function := ⟨d,closure,d.name.lexeme == "init"⟩
    have hnew : (m.heap.addFunction f).2.getFunction ⟨m.heap.functions.size⟩ = f := by
      rw [Heap.getFunction_addFunction,if_pos rfl]
    obtain ⟨methods,m₁,hrest,hevolves,hclasses,hmethods⟩ :=
      ih (m := { m with heap := (m.heap.addFunction f).2 }) (hclosure.extends (.addFunction m.heap f))
    refine ⟨(d.name.lexeme,⟨m.heap.functions.size⟩) :: methods,m₁,bind_of_ok hrest _,
      (Heap.Evolves.refl.addFunction hclosure).trans hevolves,hclasses,.cons ⟨rfl,?_,?_⟩ hmethods⟩
    · exact Nat.lt_of_lt_of_le (by simp [Heap.addFunction]) hevolves.kept.functions
    · exact (hevolves.kept.function _ (by simp [Heap.addFunction])).trans hnew

variable {r : Run} {n : Nat} {m m₁ m₂ : Machine} {w w' : Work}

theorem methodScope_made (superclass : Option ClassId) (hscope : r.Offers m.heap m.scope) : ∃ closure m₁,
    methodScope superclass m = .ok closure m₁ ∧ m.heap.Evolves r m₁.heap ∧ m₁.heap.classes = m.heap.classes ∧
      r.Offers m₁.heap closure := by
  cases superclass with
  | none => exact ⟨m.scope,m,rfl,.refl,rfl,hscope⟩
  | some k => exact ⟨_,_,rfl,.addScope .refl _ hscope,rfl,.there (by simp)⟩

/-- The name of a class gets the class as its value. -/
theorem Eval.Evolves.bindClass (name : Token) (c : ClassId) : Eval.Evolves r (do
    let m ← get
    match m.heap.holder? m.scope name.lexeme with
    | some holder => changeHeap (·.define holder name.lexeme (.class c))
    | none => Eval.runtime (.undefinedVariable name.lexeme) name) m := by
  refine .bind (x := MonadState.get) (.of_ok rfl .refl) fun m' m₁ _ => ?_
  cases m'.heap.holder? m'.scope name.lexeme with
  | some holder => exact .of_ok rfl (.define .refl holder name.lexeme _)
  | none => exact .runtime _ name

/-- The class is entered under the next free place, and nothing else is entered among the classes. -/
theorem Visits.class_evolves {name : Token} {parent : Option ClassId} {ds : List FunctionDecl}
    (hvisits : Visits r (.classDefinition name parent ds) m) : (Eval.defineClass name parent ds).Evolves r m := by
  refine .bind (.define name.lexeme .nil) fun _ m₁ hdefined => ?_
  obtain rfl := (EStateM.Result.ok.inj hdefined).2
  have hoffered : r.Offers (m.heap.define m.scope name.lexeme .nil) m.scope := .current hvisits (by simp)
  obtain ⟨closure,m₂,hscope,hevolves,hclasses,hclosure⟩ :=
    methodScope_made parent (m := { m with heap := m.heap.define m.scope name.lexeme .nil }) hoffered
  refine .bind (.of_ok hscope hevolves) fun closure' m₂' hscope' => ?_
  obtain ⟨rfl,rfl⟩ := EStateM.Result.ok.inj (hscope.symm.trans hscope')
  obtain ⟨methods,m₃,hmade,hevolves',hclasses',hmethods⟩ := addMethods_made ds hclosure
  refine .bind (.of_ok hmade hevolves') fun methods' m₃' hmade' => ?_
  obtain ⟨rfl,rfl⟩ := EStateM.Result.ok.inj (hmade.symm.trans hmade')
  have hsize : m₃.heap.classes.size = m.heap.classes.size := congrArg Array.size (hclasses'.trans hclasses)
  exact .bind (.of_ok rfl (.addClass .refl hvisits hsize hmethods)) fun c m₄ _ => .bindClass name c

/-! ### Expressions and statements -/

/-- With this budget, what expressions and statements do to a heap is known. -/
structure Evolving (r : Run) (n : Nat) : Prop where
  expr : ∀ e m, Visits r (.expr n e) m → (evaluate n e).Evolves r m
  stmt : ∀ s m, Visits r (.stmt n s) m → (execute n s).Evolves r m

namespace Evolving

variable (hn : Evolving r n)
include hn

theorem exprs {es : List Expr} (h : Visits r (.exprs n es) m) : (evaluateEach (evaluate n) es).Evolves r m := by
  induction es generalizing m with
  | nil => exact .pure _
  | cons e es ih =>
    exact .bind (hn.expr e m (h.step .exprs_head)) fun v m₁ hv =>
      .bind (ih (h.step (.exprs_tail hv))) fun vs m₂ _ => .pure _

theorem stmts {ss : List Stmt} (h : Visits r (.stmts n ss) m) : (executeEach (execute n) ss).Evolves r m := by
  induction ss generalizing m with
  | nil => exact .pure _
  | cons s ss ih =>
    refine .bind (hn.stmt s m (h.step .stmts_head)) fun flow m₁ hflow => ?_
    cases flow with
    | normal => exact ih (h.step (.stmts_tail hflow))
    | returned v => exact .pure _

section

variable {c : Expr} {s : Stmt} {k : Nat}

section

variable (hrounds : ∀ {m}, Visits r (.loop n c s k) m → (whileLoop (evaluate n c) (execute n s) k).Evolves r m)
  (h : Visits r (.loop n c s (k + 1)) m) {v : Value} (hv : evaluate n c m = .ok v m₁)
include hrounds h hv

omit hn in
theorem loop_after_body (htrue : v.isTruthy = true) (flow : Flow) (m₂ : Machine) :
    execute n s m₁ = .ok flow m₂ → Eval.Evolves r (match flow with
      | .normal => whileLoop (evaluate n c) (execute n s) k
      | .returned v => return .returned v : Eval Flow) m₂ := by
  intro hflow
  cases flow with
  | normal => exact hrounds (h.step (.loop_again hv htrue hflow))
  | returned v => exact .pure _

theorem loop_after_condition : Eval.Evolves r (if v.isTruthy then do
      match ← execute n s with
      | .normal => whileLoop (evaluate n c) (execute n s) k
      | .returned v => return .returned v
    else return .normal : Eval Flow) m₁ :=
  .ite (fun htrue => .bind (hn.stmt s m₁ (h.step (.loop_body hv htrue))) (loop_after_body hrounds h hv htrue))
    fun _ => .pure _

end

theorem loop (h : Visits r (.loop n c s k) m) : (whileLoop (evaluate n c) (execute n s) k).Evolves r m := by
  induction k generalizing m with
  | zero => exact .exhausted
  | succ k ih => exact .bind (hn.expr c m (h.step .loop_condition)) fun _ _ => hn.loop_after_condition ih h

end

theorem program {ss : List Stmt} (h : Visits r (.program n ss) m) : (Machine.executeProgram n ss).Evolves r m := by
  induction ss generalizing m with
  | nil => exact .pure ()
  | cons s ss ih =>
    exact .bind (hn.stmt s m (h.step .program_head)) fun flow m₁ hflow => ih (h.step (.program_tail hflow))

theorem apply {f : FunctionId} {vs : List Value} (h : Visits r (.apply n f vs) m) :
    (Eval.apply (executeEach (execute n)) f vs).Evolves r m := by
  let m₁ : Machine := { m.note (.functionCalled (m.heap.getFunction f).name) with heap := (m.calling f vs).heap }
  have hbody : Eval.Evolves r (Eval.inScope (m.calling f vs).scope (executeEach (execute n)
      (m.heap.getFunction f).declaration.body)) m₁ := .inScope (hn.stmts (h.step .body))
  have hall := hbody.bind (f := Eval.callResult (m.heap.getFunction f)) fun flow m₂ _ =>
    (Evolves.composes r).callResult _ flow m₂
  have hbegun : m.heap.Evolves r m₁.heap := Heap.Evolves.refl.addScope _ (r.offers_closure m.heap f)
  rw [Eval.Evolves,Eval.after_eq (apply_eq n f vs m)]
  exact hbegun.trans hall

theorem invoke {callee : Value} {paren : Token} {vs : List Value} (h : Visits r (.invoke n callee paren vs) m) :
    (Eval.invoke (executeEach (execute n)) callee paren vs).Evolves r m := by
  cases callee with
  | native f => exact .of_ok rfl .refl
  | function f => exact hn.apply (h.step .function)
  | «class» c =>
    have hmade : m.heap.Evolves r (m.constructing c).heap := .addInstance .refl h (Nat.le_refl _)
    cases hfound : (m.constructing c).heap.findMethod? c "init" with
    | none => exact .of_ok (construct_none _ vs hfound) hmade
    | some f =>
      have happly := Eval.Evolves.bind (f := fun _ => return Value.instance ⟨m.heap.instances.size⟩)
        (hn.apply (h.step (.construction hfound))) fun _ _ _ => .pure _
      have hall := (hmade.bind f ⟨m.heap.instances.size⟩).trans happly
      rwa [← Eval.after_eq (construct_some _ vs hfound)] at hall
  | _ => exact .runtime .notCallable paren

theorem call {e : Expr} {paren : Token} {es : List Expr} {f : Value} {vs : List Value}
    (h : Visits r (.expr (n + 1) (.call e paren es)) m) (he : evaluate n e m = .ok f m₁)
    (hes : evaluateEach (evaluate n) es m₁ = .ok vs m₂) :
    (Eval.call (executeEach (execute n)) f paren vs).Evolves r m₂ := by
  refine .after (call_eq _ f paren vs m₂) rfl ?_
  split
  next => exact .runtime .notCallable paren
  next name arity hcallable =>
    refine .ite (fun _ => .runtime _ paren) fun harity => .ite (fun _ => ?_) fun hdepth => ?_
    · exact .bind (.note _) fun _ _ _ => .stop _
    · obtain rfl : vs.length = arity := Decidable.not_not.mp harity
      exact .nested (hn.invoke (h.step (.invoke he hes hcallable (Nat.lt_of_not_le hdepth))))

/-- When the object of an assignment to one of its fields is there. -/
theorem set_after_object {e value : Expr} {name : Token} (h : Visits r (.expr (n + 1) (.set e name value)) m)
    (object : Value) (m₁ : Machine) : evaluate n e m = .ok object m₁ → Eval.Evolves r (match object with
      | .instance i => do
        let v ← evaluate n value
        changeHeap (·.setField i name.lexeme v)
        return v
      | _ => Eval.runtime .fieldOfNonInstance name : Eval Value) m₁ := by
  intro he
  cases object with
  | «instance» i =>
    exact .bind (hn.expr value m₁ (h.step (.set_value he))) fun v _ _ =>
      .bind (.of_ok rfl (.setField .refl i name.lexeme v)) fun _ _ _ => .pure v
  | _ => exact .runtime .fieldOfNonInstance name

theorem expr_succ (e : Expr) (m : Machine) (h : Visits r (.expr (n + 1) e) m) :
    (evaluate (n + 1) e).Evolves r m := by
  have hp := Evolves.composes r
  cases e with
  | literal l => exact .pure l.value
  | grouping inner => exact hn.expr inner m (h.step .grouping)
  | unary op right => exact .bind (hn.expr right m (h.step .unary)) fun v m₁ _ => hp.outcome _ m₁
  | binary left op right =>
    exact .bind (hn.expr left m (h.step .binary_left)) fun v m₁ hv =>
      .bind (hn.expr right m₁ (h.step (.binary_right hv))) fun w m₂ _ => hp.outcome _ m₂
  | logical left op right =>
    refine .bind (hn.expr left m (h.step .logical_left)) fun v m₁ hv => .ite (fun _ => .pure v) fun hgoes => ?_
    exact hn.expr right m₁ (h.step (.logical_right hv (by simpa using hgoes)))
  | ternary c a b =>
    exact .bind (hn.expr c m (h.step .ternary_condition)) fun v m₁ hv => .ite
      (fun htrue => hn.expr a m₁ (h.step (.ternary_true hv htrue)))
      fun hfalse => hn.expr b m₁ (h.step (.ternary_false hv (by simpa using hfalse)))
  | «variable» id name => exact hp.lookUp id name m
  | assign id name e =>
    exact .bind (hn.expr e m (h.step .assign_value)) fun v _ _ => .bind (.assign id name v) fun _ _ _ => .pure v
  | call callee paren es =>
    exact .bind (hn.expr callee m (h.step .callee)) fun f m₁ hf =>
      .bind (hn.exprs (h.step (.arguments hf))) fun vs m₂ hvs => hn.call h hf hvs
  | get object name => exact .bind (hn.expr object m (h.step .get_object)) fun v m₁ _ => hp.getProperty v name m₁
  | set object name e => exact .bind (hn.expr object m (h.step .set_object)) (hn.set_after_object h)
  | this id keyword => exact hp.lookUp id keyword m
  | super id keyword method => exact hp.superMethod id keyword method m

theorem classStatement {name : Token} {superclass : Option Expr} {methods : List FunctionDecl}
    (h : Visits r (.stmt (n + 1) (.class name superclass methods)) m) :
    (execute (n + 1) (.class name superclass methods)).Evolves r m := by
  refine .bind (.note _) fun _ m₁ hnoted => ?_
  obtain rfl := (EStateM.Result.ok.inj hnoted).2
  cases superclass with
  | none =>
    refine .bind (.pure none) fun parent m₁ hparent => ?_
    obtain ⟨rfl,rfl⟩ := EStateM.Result.ok.inj hparent
    exact .bind (h.step .class_alone).class_evolves fun _ _ _ => .pure _
  | some e =>
    have hsuper : (Eval.superclassOf (evaluate n) name (some e)).Evolves r (m.note (.classDefined name.lexeme)) :=
      .bind (hn.expr e _ (h.step .superclass)) fun v _ _ => .superclass name e v
    refine .bind hsuper fun parent m₁ hparent => ?_
    obtain ⟨k,rfl,he⟩ := superclassOf_ok hparent
    exact .bind (h.step (.class_derived he)).class_evolves fun _ _ _ => .pure _

theorem stmt_succ (s : Stmt) (m : Machine) (h : Visits r (.stmt (n + 1) s) m) :
    (execute (n + 1) s).Evolves r m := by
  cases s with
  | expression e => exact .bind (hn.expr e m (h.step .expression)) fun _ _ _ => .pure _
  | print e =>
    exact .bind (hn.expr e m (h.step .print)) fun v m₁ _ =>
      .bind (x := Eval.heap) (.of_ok rfl .refl) fun k _ _ => .bind (.print _) fun _ _ _ => .pure _
  | var name initializer =>
    have hdefine (v : Value) (m₁ : Machine) : Eval.Evolves r (do
        Eval.note (.variableDefined name.lexeme)
        Eval.define name.lexeme v
        return Flow.normal) m₁ := .bind (.note _) fun _ _ _ => .bind (.define _ v) fun _ _ _ => .pure _
    cases initializer with
    | none => exact .bind (.pure _) fun v m₁ _ => hdefine v m₁
    | some e => exact .bind (hn.expr e m (h.step .var)) fun v m₁ _ => hdefine v m₁
  | block body => exact .inNew (.current h (Nat.le_refl _)) (hn.stmts (h.step .block))
  | branch c s t =>
    refine .bind (hn.expr c m (h.step .branch_condition)) fun v m₁ hv => .ite
      (fun htrue => hn.stmt s m₁ (h.step (.branch_then hv htrue))) fun hfalse => ?_
    cases t with
    | none => exact .pure _
    | some t => exact hn.stmt t m₁ (h.step (.branch_else hv (by simpa using hfalse)))
  | loop c body => exact hn.loop (h.step .loop)
  | function d =>
    have hscope : r.Offers m.heap m.scope := .current h (Nat.le_refl _)
    refine .bind (.note _) fun _ m₁ hnoted => .bind (x := MonadState.get) (.of_ok rfl .refl) fun m₂ m₃ hget => ?_
    obtain rfl := (EStateM.Result.ok.inj hnoted).2
    obtain ⟨rfl,rfl⟩ := EStateM.Result.ok.inj hget
    exact .bind (.of_ok rfl (.addFunction .refl hscope)) fun f _ _ => .bind (.define _ _) fun _ _ _ => .pure _
  | «return» keyword value =>
    cases value with
    | none => exact .pure _
    | some e => exact .bind (hn.expr e m (h.step .returning)) fun _ _ _ => .pure _
  | «class» name superclass methods => exact hn.classStatement h

end Evolving

theorem evolving (r : Run) (n : Nat) : Evolving r n := by
  induction n with
  | zero => exact ⟨fun _ _ _ => .exhausted,fun _ _ _ => .exhausted⟩
  | succ n ih => exact ⟨ih.expr_succ,ih.stmt_succ⟩

/-- The heap that a piece of work leaves. -/
theorem Visits.evolves (h : Visits r w m) : m.heap.Evolves r (w.after m).heap := by
  cases w with
  | program n ss => exact (evolving r n).program h
  | stmts n ss => exact (evolving r n).stmts h
  | stmt n s => exact (evolving r n).stmt s m h
  | loop n c s k => exact (evolving r n).loop h
  | expr n e => exact (evolving r n).expr e m h
  | exprs n es => exact (evolving r n).exprs h
  | invoke n callee paren vs => exact (evolving r n).invoke h
  | apply n f vs => exact (evolving r n).apply h
  | bind f i => exact .bind .refl f i
  | classDefinition name parent ds => exact h.class_evolves

end Lox

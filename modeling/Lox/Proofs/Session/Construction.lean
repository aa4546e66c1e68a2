import Lox.Proofs.Run.Apply
import Lox.Proofs.Session.Property
import Mathlib

/-! Instances are made by calling classes, and initialized by the method `init`, which always gives its instance. -/
namespace Lox

open Eval

/-- The instance is not there yet, and nothing refers to it. -/
structure Heap.Unknown (h : Heap) (i : InstanceId) : Prop where
  new : h.instances.size ≤ i.index
  scopes : ∀ j name, (h.getScope j).bindings.find? name ≠ some (.instance i)
  fields : ∀ j name, (h.getInstance j).fields.find? name ≠ some (.instance i)

/-- How many arguments the initializer takes that a class has, if it has one. -/
def initArity (d? : Option FunctionDecl) : Nat := d?.elim 0 (·.parameters.length)

/-- Between the two machines, an instance has been made and the initializer has been called on it, if there is one. -/
inductive Machine.Constructs (runs : List Run) (n : Nat) (c : ClassId) (vs : List Value) (i : InstanceId) (m : Machine) :
    Option FunctionDecl → Machine → Prop
  | plain : Constructs runs n c vs i m none (m.constructing c)
  | initialized {f d g m'} (hd : (m.heap.getFunction f).declaration = d)
    (hg : g = ((m.constructing c).heap.bind f i).1) (hreceiver : Receiver runs g i)
    (hcalls : ((m.constructing c).binding f i).Calls n g vs m') : Constructs runs n c vs i m (some d) m'

/-- The function is an `init` that has been bound to the instance, as one of its properties or with `super`. -/
inductive BoundInit (runs : List Run) : FunctionId → InstanceId → FunctionDecl → Prop
  | property {r n e name m i m₁ f} (hr : r ∈ runs) (hv : Visits r (.expr (n + 1) (.get e name)) m)
    (he : evaluate n e m = .ok (.instance i) m₁) (hname : name.lexeme = "init")
    (hf : m₁.heap.property? i name.lexeme = some (.method f)) :
    BoundInit runs (m₁.heap.bind f i).1 i (m₁.heap.getFunction f).declaration
  | super {r n id keyword method m d c i f} (hr : r ∈ runs) (hv : Visits r (.expr (n + 1) (.super id keyword method)) m)
    (hd : m.distances.find? id = some (d + 1)) (hc : m.heap.getAt m.scope (d + 1) "super" = .ok (.class c))
    (hi : m.heap.getAt m.scope d "this" = .ok (.instance i)) (hname : method.lexeme = "init")
    (hf : m.heap.findMethod? c method.lexeme = some f) :
    BoundInit runs (m.heap.bind f i).1 i (m.heap.getFunction f).declaration

variable {runs : List Run} {programs : List (List Stmt)} {s : Session} {r : Run} {w : Work} {m m₁ m₂ m' : Machine}
  {h h' : Heap} {n : Nat} {e : Expr} {es : List Expr} {paren : Token} {c : ClassId} {f g : FunctionId} {i : InstanceId}
  {vs : List Value} {v callee : Value} {d : FunctionDecl} {flow : Flow}

/-! ### New instances -/

/-- A class is called with the arguments of its initializer. -/
theorem Heap.classArity_eq (h : Heap) (c : ClassId) :
    h.classArity c = initArity ((h.findMethod? c "init").map fun f => (h.getFunction f).declaration) := by
  rw [classArity]
  cases h.findMethod? c "init" <;> rfl

theorem Machine.Whole.unknown (hm : m.Whole) : m.heap.Unknown ⟨m.heap.instances.size⟩ where
  new := Nat.le_refl _
  scopes j name hi := by
    have hknown := ((hm.heap.scope j).bound name _ (fun _ => trivial) hi).2
    exact Nat.lt_irrefl _ hknown
  fields j name hi := by
    by_cases hj : j.index < m.heap.instances.size
    · have hknown := (hm.heap.instance j hj).fields.knows name _ hi
      exact Nat.lt_irrefl _ hknown
    · simp [Heap.getInstance,Array.getElem?_eq_none (Nat.le_of_not_lt hj),default] at hi

/-- A class has methods named `init` for initializers. -/
theorem Machine.Whole.initializer (hm : m.Whole) (hbuilt : m.heap.Built runs) (hc : c.index < m.heap.classes.size)
    (hf : m.heap.findMethod? c "init" = some f) : (m.heap.getFunction f).isInitializer = true :=
  ((Heap.inherits_findMethod? hm.heap.superclass c "init").provides hm.heap.superclass hbuilt hc).2 f hf

/-! ### Initializers and their instances -/

theorem Heap.BoundTo.unique {j : InstanceId} (hi : h.BoundTo g i) (hj : h.BoundTo g j) : i = j :=
  Value.instance.inj (Option.some.inj (hi.this.symm.trans hj.this))

namespace Reached

variable (hs : Reached runs programs s)
include hs

/-- Every initializer that is called has been bound to an instance. -/
theorem initializer_bound (hids : s.ids.allocated ≤ 2 ^ 32) (hr : r ∈ runs) (hv : Visits r (.apply n g vs) m)
    (hinit : (m.heap.getFunction g).isInitializer = true) : ∃ i, m.heap.BoundTo g i := by
  obtain ⟨earlier,-,hmet⟩ := (hs.orderly hids).visits hr hv
  obtain ⟨hready,⟨hlt,p,c,context,hcloses⟩,-⟩ := hmet.typed
  obtain ⟨frame,hframe,hthis⟩ := hcloses.receiver hinit
  have hbinds : m.heap.Binds (m.heap.getFunction g).closure "this" := by
    cases hframes : c.frames with
    | nil => simp [hframes] at hframe
    | cons top frames =>
      have hchain := hcloses.chain
      obtain rfl : top = frame := by simpa [hframes] using hframe
      rw [hframes] at hchain
      cases hchain with
      | cons _ _ hnames => exact hnames "this" hthis
  obtain ⟨v,hv⟩ := Option.isSome_iff_exists.mp hbinds
  obtain ⟨i,rfl⟩ := (hready.good.scope _).this v hv
  exact ⟨i,hlt,hv⟩

/-- Whatever the body of an initializer does, the call gives the instance. -/
theorem initializer_result (hids : s.ids.allocated ≤ 2 ^ 32) (hr : r ∈ runs) (hv : Visits r (.apply n g vs) m)
    (hg : m.heap.BoundTo g i) (hinit : (m.heap.getFunction g).isInitializer = true)
    (hbody : executeEach (execute n) (m.heap.getFunction g).declaration.body (m.calling g vs) = .ok flow m₁) :
    Eval.apply (executeEach (execute n)) g vs m = .ok (.instance i) { m₁ with scope := m.scope } := by
  obtain ⟨earlier,-,hmet⟩ := (hs.orderly hids).visits hr hv
  have htakes := ((sequenced earlier r n).stmts (hmet.step .body)).retains
  simp only [Eval.after,hbody] at htakes
  have hevolves : (m.calling g vs).heap.Evolves r m₁.heap := ((evolving r n).stmts (hv.step .body)).ok hbody
  have hextends : m.heap.Extends m₁.heap := Heap.Extends.trans (.addScope _ _) hevolves.kept.toExtends
  have hended : m₁.heap.BoundTo g i := hg.later hextends (Heap.Retains.trans (.addScope _ _) htakes)
  rw [apply_ok hbody]
  refine callResult_receiver hinit ?_
  rw [← hextends.function g hg.inRange]
  exact hended.this

/-- A bound initializer stays what it is. -/
theorem bound_initializer (hids : s.ids.allocated ≤ 2 ^ 32) (hr : r ∈ runs) (hv : Visits r (.bind f i) m)
    (hinit : (m.heap.getFunction f).isInitializer = true) : s.machine.heap.BoundTo (m.heap.bind f i).1 i ∧
      (s.machine.heap.getFunction (m.heap.bind f i).1).isInitializer = true ∧
      (s.machine.heap.getFunction (m.heap.bind f i).1).declaration = (m.heap.getFunction f).declaration := by
  have hlt := (Heap.BoundTo.bind m.heap f i).inRange
  have hnew : ((Work.bind f i).after m).heap.getFunction (m.heap.bind f i).1 =
      { m.heap.getFunction f with closure := ⟨m.heap.scopes.size⟩ } := Heap.getFunction_bind m.heap f i
  have hkept := ((hs.kept_after hr hv).function _ hlt).trans hnew
  refine ⟨hs.bound hids hr hv,?_,?_⟩
  · rw [hkept]
    exact hinit
  · rw [hkept]

theorem boundInit (hids : s.ids.allocated ≤ 2 ^ 32) (h : BoundInit runs g i d) : s.machine.heap.BoundTo g i ∧
    (s.machine.heap.getFunction g).isInitializer = true ∧ (s.machine.heap.getFunction g).declaration = d := by
  cases h with
  | @property r n e name m _ m₁ f hr hv he hname hf =>
    refine hs.bound_initializer hids hr (hv.step (.get_method he hf)) ?_
    obtain ⟨hm₁,hi⟩ := (hs.visits_whole hr (hv.step .get_object)).2.evaluate he
    have hevolves : m.heap.Evolves r m₁.heap := ((evolving r n).expr e m (hv.step .get_object)).ok he
    refine hm₁.initializer (hevolves.built hr (hs.built hr hv)) (hm₁.heap.instance i hi).known ?_
    rw [hname] at hf
    simp only [Heap.property?] at hf
    split at hf
    next => cases hf
    next =>
      obtain ⟨f',hfound,hmethod⟩ := Option.map_eq_some_iff.mp hf
      cases hmethod
      exact hfound
  | @super r n id keyword method m d c _ f hr hv hd hc hi hname hf =>
    have hm := (hs.visits_whole hr hv).2
    have hinit := hm.initializer (hs.built hr hv) (hm.getAt (by decide) hc) (hname ▸ hf)
    have hbound := hs.bound_initializer hids hr (hv.step (.super_method hd hc hi hf)) hinit
    exact hbound

/-- What calling a class does, once the call has been allowed. -/
theorem constructs (hids : s.ids.allocated ≤ 2 ^ 32) (hr : r ∈ runs) (hv : Visits r (.invoke n (.class c) paren vs) m)
    (hinvoke : Eval.invoke (executeEach (execute n)) (.class c) paren vs m = .ok v m') :
    v = .instance ⟨m.heap.instances.size⟩ ∧ m.Constructs runs n c vs ⟨m.heap.instances.size⟩
        ((m.heap.findMethod? c "init").map fun f => (m.heap.getFunction f).declaration) m' ∧
      m.heap.instances.size < m'.heap.instances.size ∧
      (m'.heap.getInstance ⟨m.heap.instances.size⟩).ofClass = c := by
  have hclasses : (m.constructing c).heap.classes = m.heap.classes := rfl
  have hmade := Heap.findMethod?_congr hclasses c "init"
  have hsize : m.heap.instances.size < (m.constructing c).heap.instances.size := by
    simp [Machine.constructing,Heap.addInstance]
  have hclass : ((m.constructing c).heap.getInstance ⟨m.heap.instances.size⟩).ofClass = c := by
    have hnew := Heap.getInstance_addInstance m.heap ⟨c,∅⟩ ⟨m.heap.instances.size⟩
    exact (congrArg Instance.ofClass hnew).trans (by rw [if_pos rfl])
  rw [Eval.invoke] at hinvoke
  cases hf : m.heap.findMethod? c "init" with
  | none =>
    rw [construct_none _ vs (hmade.trans hf)] at hinvoke
    obtain ⟨rfl,rfl⟩ := EStateM.Result.ok.inj hinvoke
    exact ⟨rfl,.plain,hsize,hclass⟩
  | some f =>
    rw [construct_some _ vs (hmade.trans hf)] at hinvoke
    have happly := hv.step (.construction (hmade.trans hf))
    have hreceiver := hs.receiver hids (hs.bound hids hr (hv.step (.initializer (hmade.trans hf))))
    cases hresult : Eval.apply (executeEach (execute n)) ((m.constructing c).heap.bind f ⟨m.heap.instances.size⟩).1 vs
        ((m.constructing c).binding f ⟨m.heap.instances.size⟩) with
    | error halt m₁ =>
      rw [bind_of_error hresult] at hinvoke
      cases hinvoke
    | ok u m₁ =>
      rw [bind_of_ok hresult] at hinvoke
      obtain ⟨rfl,rfl⟩ := EStateM.Result.ok.inj hinvoke
      have hevolves := ((evolving r n).apply happly).ok hresult
      have hkept : (m.constructing c).heap.Kept m₁.heap := .trans (.bind _ f _) hevolves.kept
      exact ⟨rfl,.initialized rfl rfl hreceiver (of_apply_ok hresult),Nat.lt_of_lt_of_le hsize hkept.instances,
        (hkept.ofClass _ hsize).trans hclass⟩

/-- What calling a bound initializer does, once the call has been allowed. -/
theorem reinitializes (hids : s.ids.allocated ≤ 2 ^ 32) (hr : r ∈ runs)
    (hv : Visits r (.invoke n (.function g) paren vs) m) (hg : BoundInit runs g i d)
    (hinvoke : Eval.invoke (executeEach (execute n)) (.function g) paren vs m = .ok v m') :
    v = .instance i ∧ m.Calls n g vs m' := by
  obtain ⟨hbound,hinit,-⟩ := hs.boundInit hids hg
  have happly := hv.step .function
  obtain ⟨earlier,-,hmet⟩ := (hs.orderly hids).visits hr happly
  obtain ⟨-,⟨hlt,-⟩,-⟩ := hmet.typed
  -- It is called at another moment than it was bound; both are compared in the present.
  have hkept := (hs.kept hr happly).toExtends
  rw [hkept.function g hlt] at hinit
  obtain ⟨j,hj⟩ := hs.initializer_bound hids hr happly hinit
  obtain rfl := (hj.later hkept (hs.retains hids hr happly)).unique hbound
  obtain ⟨flow,m₁,hbody,rfl⟩ := of_apply_ok hinvoke
  obtain ⟨rfl,-⟩ := EStateM.Result.ok.inj (hinvoke.symm.trans (hs.initializer_result hids hr happly hj hinit hbody))
  exact ⟨rfl,flow,m₁,hbody,rfl⟩

end Reached

/-! ### Calls -/

/-- A call of a class makes a new instance of it. The initializer is the last method that is declared as `init` in the
nearest class upward; the arguments must be as many as it takes, or none if there is no initializer. It is called once
and receives the instance. The result is the instance, however the initializer ends. A bound initializer can be called
again, which gives the same instance. -/
theorem construction (hs : Reached runs programs s) (hids : s.ids.allocated ≤ 2 ^ 32) (hr : r ∈ runs)
    (hv : Visits r (.expr (n + 1) (.call e paren es)) m) (he : evaluate n e m = .ok callee m₁)
    (hes : evaluateEach (evaluate n) es m₁ = .ok vs m₂) :
    (∀ c, callee = .class c → ∃ d?, m₂.heap.Provides runs "init" c d? ∧
        (vs.length ≠ initArity d? → evaluate (n + 1) (.call e paren es) m =
          Eval.runtime (.arity (initArity d?) vs.length) paren m₂) ∧
        ∀ v m', evaluate (n + 1) (.call e paren es) m = .ok v m' → vs.length = initArity d? ∧
          ∃ i, v = .instance i ∧ m₂.heap.Unknown i ∧ .instance i ∉ vs ∧ i.index < m'.heap.instances.size ∧
            (m'.heap.getInstance i).ofClass = c ∧
            ∃ m₃, m₂.deeper.Constructs runs n c vs i d? m₃ ∧ m' = { m₃ with depth := m₂.depth }) ∧
      ∀ g i d, callee = .function g → BoundInit runs g i d →
        (m₂.heap.getFunction g).declaration = d ∧ Receiver runs g i ∧
        (vs.length ≠ d.parameters.length → evaluate (n + 1) (.call e paren es) m =
          Eval.runtime (.arity d.parameters.length vs.length) paren m₂) ∧
        ∀ v m', evaluate (n + 1) (.call e paren es) m = .ok v m' → vs.length = d.parameters.length ∧ v = .instance i ∧
          ∃ m₃, m₂.deeper.Calls n g vs m₃ ∧ m' = { m₃ with depth := m₂.depth } := by
  obtain ⟨hm₁,hcallee⟩ := (hs.visits_whole hr (hv.step .callee)).2.evaluate he
  obtain ⟨hm₂,hvs⟩ := hm₁.evaluateEach hes
  have harguments := hv.step (.arguments he)
  have hevolves : m₁.heap.Evolves r m₂.heap := ((evolving r n).exprs harguments).ok hes
  rw [evaluate_call paren he hes]
  refine ⟨?_,?_⟩
  · rintro c rfl
    have hcallable : m₂.heap.callable? (.class c) = some ((m₂.heap.getClass c).name,initArity _) :=
      congrArg (fun arity => some (_,arity)) (m₂.heap.classArity_eq c)
    have hc : c.index < m₂.heap.classes.size := Nat.lt_of_lt_of_le hcallee hevolves.kept.classes
    refine ⟨_,hm₂.provides (hevolves.built hr (hs.built hr harguments)) hc "init",call_arity _ hcallable,fun v m' hcall => ?_⟩
    obtain ⟨hlength,hdepth,m₃,hinvoke,rfl⟩ := of_call_ok hcallable hcall
    obtain ⟨rfl,hconstructs,hlt,hclass⟩ :=
      hs.constructs hids hr (hv.step (.invoke he hes (hlength ▸ hcallable) hdepth)) hinvoke
    refine ⟨hlength,_,rfl,hm₂.unknown,fun hmem => ?_,hlt,hclass,m₃,hconstructs,rfl⟩
    exact Nat.lt_irrefl _ (hvs _ hmem)
  · rintro g i d rfl hg
    obtain ⟨hbound,hinit,rfl⟩ := hs.boundInit hids hg
    obtain ⟨earlier,-,hmet⟩ := (hs.orderly hids).visits hr (hv.step .callee)
    obtain ⟨-,hlt,-⟩ := ((safe earlier r n).expr e m hmet).ok he
    have hkept : m₂.heap.Kept s.machine.heap := by
      simpa only [Work.after,Eval.after,hes] using hs.kept_after hr harguments
    have hsame := hkept.function g (Nat.lt_of_lt_of_le hlt hevolves.kept.functions)
    have hcallable : m₂.heap.callable? (.function g) = some ((s.machine.heap.getFunction g).name,
        (s.machine.heap.getFunction g).declaration.parameters.length) := by
      rw [hsame]
      rfl
    refine ⟨by rw [hsame],hs.receiver hids hbound,call_arity _ hcallable,fun v m' hcall => ?_⟩
    obtain ⟨hlength,hdepth,m₃,hinvoke,rfl⟩ := of_call_ok hcallable hcall
    obtain ⟨rfl,hcalls⟩ := hs.reinitializes hids hr (hv.step (.invoke he hes (hlength ▸ hcallable) hdepth)) hg hinvoke
    exact ⟨hlength,rfl,m₃,hcalls,rfl⟩

/-- The initializer of the superclass is called on a new instance of the subclass, and then called on it again. -/
theorem construction_inherited :
    ∃ runs programs s r e name paren m m₁ m₂ m₃ d? g d, Reached runs programs s ∧ r ∈ runs ∧
      Visits r (.expr 7 (.call (.get (.call e paren []) name) paren [])) m ∧
      evaluate 4 e m = .ok (.class ⟨1⟩) m₁ ∧ m₁.heap.Provides runs "init" ⟨1⟩ d? ∧ initArity d? = 0 ∧
      m₁.heap.Unknown ⟨0⟩ ∧ evaluate 5 (.call e paren []) m = .ok (.instance ⟨0⟩) m₂ ∧ BoundInit runs g ⟨0⟩ d ∧
      Receiver runs g ⟨0⟩ ∧ evaluate 7 (.call (.get (.call e paren []) name) paren []) m = .ok (.instance ⟨0⟩) m₃ := by
  let a : Token := ⟨.identifier,"A",1⟩
  let b : Token := ⟨.identifier,"B",1⟩
  let name : Token := ⟨.identifier,"init",1⟩
  let left : Token := ⟨.leftBrace,"\x7b",1⟩
  let right : Token := ⟨.rightBrace,"\x7d",1⟩
  let paren : Token := ⟨.rightParen,")",1⟩
  let source := "class A \x7b init() \x7b \x7d \x7d class B < A \x7b \x7d B().init();"
  let e : Expr := .variable (.numbered 1) b
  let object : Expr := .call e paren []
  let superclass : Stmt := .class a none [⟨name,[],[]⟩]
  let subclass : Stmt := .class b (some (.variable (.numbered 0) a)) []
  let program : List Stmt := [superclass,subclass,.expression (.call (.get object name) paren [])]
  have htokens : (scan source).tokens =
      [⟨.kwClass,"class",1⟩,a,left,name,⟨.leftParen,"(",1⟩,paren,left,right,right,
        ⟨.kwClass,"class",1⟩,b,⟨.less,"<",1⟩,a,left,right,
        b,⟨.leftParen,"(",1⟩,paren,⟨.dot,".",1⟩,name,⟨.leftParen,"(",1⟩,paren,⟨.semicolon,";",1⟩,.eof 1] := by
    decide +kernel
  have herrors : (scan source).errors = [] := by decide +kernel
  have hprogram : (Reading.ofSource source ⟨0⟩).program = .ok program := by
    simp only [Reading.program,Reading.errors,Reading.ofSource,htokens,herrors]
    cbv
  let s := ((Session.new .unlimited (.startingAt 0)).read source).2
  let r : Run := ⟨8,program,(s.machine.resolve program).2.note (.interpreting 3)⟩
  have hreached : Reached [r] [program] (s.execute 8 program).2 :=
    .single .unlimited (.startingAt 0) 8 hprogram
  have hids : (s.execute 8 program).2.ids.allocated ≤ 2 ^ 32 := by
    rw [Session.execute_ids]
    simp only [s,Session.read,Reading.ofSource,htokens]
    decide +kernel
  let m : Machine := (execute 8 subclass).after ((execute 8 superclass).after r.machine)
  have hdefined : Visits r (.program 8 [.expression (.call (.get object name) paren [])]) m :=
    (Visits.start (r := r)).step (.program_tail (Eval.ok_of_value? (a := .normal) (by decide +kernel)))
      |>.step (.program_tail (Eval.ok_of_value? (a := .normal) (by decide +kernel)))
  have hcall : Visits r (.expr 7 (.call (.get object name) paren [])) m := hdefined.step .program_head |>.step .expression
  have hget : Visits r (.expr 6 (.get object name)) m := hcall.step .callee
  have hclass : evaluate 4 e m = .ok (.class ⟨1⟩) ((evaluate 4 e).after m) := Eval.ok_of_value? (by decide +kernel)
  have hmade : evaluate 5 object m = .ok (.instance ⟨0⟩) ((evaluate 5 object).after m) :=
    Eval.ok_of_value? (by decide +kernel)
  obtain ⟨d?,hprovides,-,hnew⟩ := (construction hreached hids List.mem_cons_self (hget.step .get_object) hclass rfl).1 _ rfl
  obtain ⟨hlength,i,hi,hunknown,-⟩ := hnew _ _ hmade
  obtain rfl := Value.instance.inj hi
  have hmethod : ((evaluate 5 object).after m).heap.property? ⟨0⟩ name.lexeme = some (.method ⟨0⟩) := by decide +kernel
  have hinit : BoundInit [r] _ ⟨0⟩ _ := .property List.mem_cons_self hget hmade rfl hmethod
  have hplace : (((evaluate 5 object).after m).heap.bind ⟨0⟩ ⟨0⟩).1 = ⟨2⟩ := by decide +kernel
  rw [hplace] at hinit
  have hbound : evaluate 6 (.get object name) m = .ok (.function ⟨2⟩) ((evaluate 6 (.get object name)).after m) :=
    Eval.ok_of_value? (by decide +kernel)
  have hagain : evaluate 7 (.call (.get object name) paren []) m =
      .ok (.instance ⟨0⟩) ((evaluate 7 (.call (.get object name) paren [])).after m) :=
    Eval.ok_of_value? (by decide +kernel)
  obtain ⟨-,hreceiver,-,-⟩ := (construction hreached hids List.mem_cons_self hcall hbound rfl).2 _ _ _ rfl hinit
  exact ⟨_,_,_,_,_,_,_,_,_,_,_,_,_,_,hreached,List.mem_cons_self,hcall,hclass,hprovides,hlength.symm,hunknown,hmade,hinit,
    hreceiver,hagain⟩

end Lox

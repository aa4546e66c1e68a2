import Lox.Proofs.Folding.Machine
import Lox.Proofs.Run.Variable

/-! Variables, properties, calls and class definitions, on two machines the first of which has more scopes. -/
namespace Lox

/-- What a statement returns can be used on both machines. -/
def HeapFold.KnowsFlow (τ : Tables) (p : HeapFold) : Flow → Prop
  | .normal => True
  | .returned v => p.Knows τ v

namespace Tables

/-- Sequences of statements do the same. -/
def Executes (τ : Tables) (execute : List Stmt → Eval Flow) : Prop :=
  ∀ {flags : List Bool} {ss ss' : List Stmt} {t : MachineFold}, Stmt.ListFolds τ flags ss ss' → t.At τ flags →
    Eval.Tracks τ flags (HeapFold.KnowsFlow τ) (execute ss) (execute ss') t

/-- Expressions do the same. -/
def Evaluates (τ : Tables) (evaluate : Expr → Eval Value) : Prop :=
  ∀ {flags : List Bool} {e e' : Expr} {t : MachineFold}, e.Folds τ flags e' → t.At τ flags →
    Eval.Tracks τ flags (HeapFold.Knows τ) (evaluate e) (evaluate e') t

end Tables

namespace Eval.Tracks

open MachineFold

variable {β : Type} {R : HeapFold → β → Prop} {τ : Tables} {flags flags' : List Bool} {t : MachineFold}
  {i i' : ExprId} {tok : Token} {v : Value} {f : FunctionId} {k : ScopeId} {x : String} {d : Nat}

/-! ### Variables -/

/-- The value of a name that is read at a distance. -/
theorem bindRead {f g : Value → Eval β} (ht : t.At τ flags) (hfollows : t.heap.Follows flags' k)
    (hd : flags'.getD d false = false ∨ x = "this")
    (h : ∀ v, t.heap.Knows τ v → flags'.getD d false = false → Tracks τ flags R (f v) (g v) t) :
    Tracks τ flags R (Eval.checked (t.left.heap.getAt k d x) >>= f)
      (Eval.checked (t.right.heap.getAt (t.place k) (folded flags' d) x) >>= g) t := by
  cases hv : t.left.heap.getAt k d x with
  | ok v =>
    obtain ⟨hright,hmark,hknows⟩ := ht.heap.getAt_ok hfollows hv
    rw [show t.right.heap.getAt (t.place k) (folded flags' d) x = .ok v from hright]
    exact h v hknows hmark
  | error fault =>
    rcases ht.heap.getAt_error hfollows hd hv with hfault | hright
    · exact Ends.misplaced hfault
    · rw [show t.right.heap.getAt (t.place k) (folded flags' d) x = .error fault from hright]
      exact raise ht _

theorem read (ht : t.At τ flags) (hfollows : t.heap.Follows flags' k)
    (hd : flags'.getD d false = false ∨ x = "this") :
    Tracks τ flags (HeapFold.Knows τ) (Eval.checked (t.left.heap.getAt k d x))
      (Eval.checked (t.right.heap.getAt (t.place k) (folded flags' d) x)) t := by
  have hread := bindRead (f := Pure.pure) (g := Pure.pure) ht hfollows hd fun v hv _ =>
    pure (Q := HeapFold.Knows τ) ht hv
  rwa [bind_pure,bind_pure] at hread

/-- The global scope is the same but for what the values stand for. -/
theorem globals (ht : t.At τ flags) (x : String) :
    t.right.heap.lookup? x t.right.heap.scopes.size Heap.globals =
      t.left.heap.lookup? x t.left.heap.scopes.size Heap.globals :=
  ht.heap.lookup?_globals x

theorem lookUp (ht : t.At τ flags) (hagree : τ.Agree flags i i') :
    Tracks τ flags (HeapFold.Knows τ) (lookUp i tok) (lookUp i' tok) t := by
  refine get ?_
  rw [ht.left,ht.right,ht.scope]
  cases hagree with
  | «local» hleft hkept hright =>
    rw [hleft,hright]
    exact read ht ht.follows (.inl hkept)
  | global hleft hright =>
    rw [hleft,hright]
    simp only [Heap.get?,globals ht]
    cases hfound : t.left.heap.lookup? tok.lexeme t.left.heap.scopes.size Heap.globals with
    | some found =>
      obtain ⟨j,w⟩ := found
      exact pure ht (ht.heap.lookup?_globals_ok hfound).2
    | none => exact runtime ht _ _

/-- The scope that is changed is kept. -/
theorem target (tok : Token) (ht : t.At τ flags) (hagree : τ.Agree flags i i') :
    (∃ j, Eval.target i tok t.left = .ok j t.left ∧ Eval.target i' tok t.right = .ok (t.place j) t.right ∧
      j.index < t.left.heap.scopes.size ∧ t.spare j = false) ∨
    ∃ e, Eval.target i tok t.left = Eval.raise e t.left ∧ (Eval.target i' tok t.right = Eval.raise e t.right ∨
      ∃ fault, e = .internal fault ∧ fault.Misplaced) := by
  rw [target_eq,target_eq,ht.left,ht.right,ht.scope]
  cases hagree with
  | @«local» d hleft hkept hright =>
    simp only [hleft,hright,Heap.holderAt]
    cases hlookup : t.left.heap.lookupAt t.left.scope d tok.lexeme with
    | ok found =>
      obtain ⟨j,w⟩ := found
      obtain ⟨hplace,hj,hspare,-⟩ := ht.heap.lookupAt_ok ht.follows hlookup
      rw [show t.right.heap.lookupAt (t.place t.left.scope) (folded flags d) tok.lexeme = _ from hplace]
      exact .inl ⟨j,rfl,rfl,hj,hspare⟩
    | error fault =>
      refine .inr ⟨.internal fault,rfl,?_⟩
      rcases ht.heap.lookupAt_error ht.follows (.inl hkept) hlookup with hfault | hplace
      · exact .inr ⟨fault,rfl,hfault⟩
      · rw [show t.right.heap.lookupAt (t.place t.left.scope) (folded flags d) tok.lexeme = _ from hplace]
        exact .inl rfl
  | global hleft hright =>
    simp only [hleft,hright,Heap.holder?,globals ht]
    cases hfound : t.left.heap.lookup? tok.lexeme t.left.heap.scopes.size Heap.globals with
    | some found =>
      obtain ⟨j,w⟩ := found
      obtain ⟨rfl,-⟩ := ht.heap.lookup?_globals_ok hfound
      refine .inl ⟨Heap.globals,rfl,?_,ht.heap.root,ht.heap.global.1⟩
      rw [show t.place Heap.globals = Heap.globals from ht.heap.global.2]
      rfl
    | none => exact .inr ⟨_,rfl,.inl rfl⟩

theorem assign (ht : t.At τ flags) (hagree : τ.Agree flags i i') (hv : t.heap.Knows τ v) :
    Tracks τ flags (fun _ _ => True) (assign i tok v) (assign i' tok v) t := by
  rcases target tok ht hagree with ⟨j,hleft,hright,hj,hspare⟩ | ⟨e,hleft,hright | ⟨fault,rfl,hfault⟩⟩
  · have hgrows := HeapFold.Grows.define t.heap j tok.lexeme v
    have hp := ht.heap.define hj hspare (hv.mono ht.heap hgrows)
    rw [Tracks,assign_ok hleft,assign_ok hright]
    exact .ok (t.withHeap _) (ht.withHeap hp hgrows) (.withHeap hgrows) trivial
  · rw [Tracks,assign_raise hleft,assign_raise hright]
    exact raise ht e
  · rw [Tracks,assign_raise hleft]
    exact .misplaced hfault

/-! ### Properties -/

theorem bindMethod (ht : t.At τ flags) (hf : t.heap.Closes τ [false] f) (receiver : InstanceId) :
    Tracks τ flags (HeapFold.Knows τ) (Eval.allocate (·.bind f receiver) >>= fun g => Pure.pure (Value.function g))
      (Eval.allocate (·.bind f receiver) >>= fun g => Pure.pure (Value.function g)) t := by
  obtain ⟨hsame,hp,hgrows,hcloses⟩ := ht.heap.bind hf receiver
  refine allocate ht hp hgrows rfl rfl fun u hu _ hheap => ?_
  rw [show (t.right.heap.bind f receiver).1 = (t.left.heap.bind f receiver).1 from hsame]
  exact pure hu (hheap ▸ hcloses)

theorem getProperty (ht : t.At τ flags) (v : Value) (tok : Token) :
    Tracks τ flags (HeapFold.Knows τ) (getProperty v tok) (getProperty v tok) t := by
  cases v with
  | «instance» receiver =>
    refine heap ?_
    rw [ht.property?]
    cases hproperty : t.left.heap.property? receiver tok.lexeme with
    | none => exact runtime ht _ _
    | some found =>
      obtain ⟨hfield,hmethod⟩ := ht.heap.property hproperty
      cases found with
      | field w => exact pure ht (hfield w rfl)
      | method f => exact bindMethod ht (hmethod f rfl) receiver
  | _ => exact runtime ht _ _

/-- The receiver is one scope further in than the superclass on both machines, since no spare scope binds `this`. -/
theorem superMethod (ht : t.At τ flags) (hagree : τ.Agree flags i i') (tok method : Token) :
    Tracks τ flags (HeapFold.Knows τ) (superMethod i tok method) (superMethod i' tok method) t := by
  have hother {fault : InternalFault} (hfault : ∀ x d, fault ≠ .unbound x d) : fault.Misplaced :=
    fun x hx => absurd hx (hfault x 0)
  refine get ?_
  rw [ht.left,ht.right,ht.scope]
  cases hagree with
  | global hleft hright =>
    rw [hleft]
    exact misplaced (hother (by simp))
  | @«local» d hleft hkept hright =>
    rw [hleft,hright]
    refine bindRead ht ht.follows (.inl hkept) fun v _ _ => ?_
    cases v with
    | «class» parent =>
      cases d with
      | zero => exact misplaced (hother (by simp))
      | succ inner =>
        cases hthis : t.left.heap.lookupAt t.left.scope inner "this" with
        | error fault =>
          simp only [Heap.getAt,hthis]
          exact Ends.misplaced (Heap.lookupAt_misplaced hthis)
        | ok found =>
          obtain ⟨-,-,-,hmark,-⟩ := ht.heap.lookupAt_ok ht.follows hthis
          rw [folded_next hmark]
          refine bindRead ht ht.follows (.inl hmark) fun w _ _ => ?_
          cases w with
          | «instance» receiver =>
            dsimp only
            rw [ht.findMethod?,ht.getClass]
            cases hf : t.left.heap.findMethod? parent method.lexeme with
            | none => exact runtime ht _ _
            | some f => exact note _ ht fun u hu _ hheap => bindMethod hu (hheap ▸ ht.heap.findMethod hf) receiver
          | _ => exact misplaced (hother (by simp))
    | _ => exact misplaced (hother (by simp))

/-! ### Calls -/

variable {execute : List Stmt → Eval Flow} {flow : Flow} {vs : List Value}

theorem callResult (ht : t.At τ flags) {c c' : Function} (hinitializer : c'.isInitializer = c.isInitializer)
    (hclosure : c'.closure = t.place c.closure) (hfollows : t.heap.Follows flags' c.closure)
    (hflow : t.heap.KnowsFlow τ flow) :
    Tracks τ flags (HeapFold.Knows τ) (callResult c flow) (callResult c' flow) t := by
  simp only [Eval.callResult,hinitializer,hclosure]
  split
  · have hread := read (d := 0) ht hfollows (.inr rfl)
    rw [folded_zero] at hread
    exact heap hread
  · cases flow with
    | normal => exact pure ht trivial
    | returned v => exact pure ht hflow

theorem apply (hexecute : τ.Executes execute) (ht : t.At τ flags) (hf : t.heap.Closes τ [] f)
    (hvs : ∀ v ∈ vs, t.heap.Knows τ v) :
    Tracks τ flags (HeapFold.Knows τ) (apply execute f vs) (apply execute f vs) t := by
  obtain ⟨flags',hfollows,hdeclaration⟩ := hf.declaration
  have hname : (t.right.heap.getFunction f).name = (t.left.heap.getFunction f).name := hf.name
  have hparameters : (t.right.heap.getFunction f).declaration.parameters =
      (t.left.heap.getFunction f).declaration.parameters := hf.parameters
  refine heap ?_
  dsimp only
  rw [hname,hparameters]
  refine note _ ht fun u hu hlater hheap => ?_
  rw [← hheap] at hvs
  have hplace : u.place (t.left.heap.getFunction f).closure = (t.right.heap.getFunction f).closure :=
    (hlater.heap.place _ hfollows.inRange).trans hf.closure.symm
  have haround := hfollows.mono ht.heap hlater.heap
  rw [← hplace]
  refine bind (inNew hu haround (fun x v hv => ?_) fun w hw _ => hexecute hdeclaration.body hw) ?_
  · exact hvs v (List.of_mem_zip (Bindings.mem_of_find?_ofList hv)).2
  · intro flow w hw hlater' hflow
    refine callResult hw hf.isInitializer ?_ (haround.mono hu.heap hlater'.heap) hflow
    exact hplace.symm.trans (hlater'.heap.place _ haround.inRange).symm

theorem construct (hexecute : τ.Executes execute) (ht : t.At τ flags) (k : ClassId)
    (hvs : ∀ v ∈ vs, t.heap.Knows τ v) :
    Tracks τ flags (HeapFold.Knows τ) (construct execute k vs) (construct execute k vs) t := by
  refine heap ?_
  rw [ht.getClass]
  refine note _ ht fun u hu _ hheap => ?_
  rw [← hheap] at hvs
  have hgrows := HeapFold.Grows.addInstance u.heap ⟨k,∅⟩
  have hsame : u.right.heap.instances.size = u.left.heap.instances.size := congrArg Array.size hu.heap.instances
  refine allocate hu (hu.heap.addInstance k) hgrows rfl rfl fun w hw _ hheap₁ => ?_
  have hgrows₁ : u.heap.Grows w.heap := hheap₁ ▸ hgrows
  refine heap ?_
  rw [hw.findMethod?,show (u.right.heap.addInstance ⟨k,∅⟩).1 = (u.left.heap.addInstance ⟨k,∅⟩).1 from
    congrArg InstanceId.mk hsame]
  cases hf : w.left.heap.findMethod? k "init" with
  | none => exact pure hw trivial
  | some f =>
    obtain ⟨hbound,hp,hgrows₂,hcloses⟩ := hw.heap.bind (hw.heap.findMethod hf) (u.left.heap.addInstance ⟨k,∅⟩).1
    refine allocate hw hp hgrows₂ rfl rfl fun z hz _ hheap₂ => ?_
    have hgrows₃ : w.heap.Grows z.heap := hheap₂ ▸ hgrows₂
    rw [show (w.right.heap.bind f (u.left.heap.addInstance ⟨k,∅⟩).1).1 = _ from hbound]
    refine (apply hexecute hz (hheap₂ ▸ hcloses) fun v hv => ?_).bind fun _ _ hz' _ _ => pure hz' trivial
    exact (hvs v hv).mono hu.heap (hgrows₁.trans hgrows₃)

theorem invoke (hexecute : τ.Executes execute) (ht : t.At τ flags) (hv : t.heap.Knows τ v) (paren : Token)
    (hvs : ∀ v ∈ vs, t.heap.Knows τ v) :
    Tracks τ flags (HeapFold.Knows τ) (invoke execute v paren vs) (invoke execute v paren vs) t := by
  cases v with
  | native f => exact note _ ht fun u hu _ _ => (readClock hu).bind fun _ _ hw _ _ => pure hw trivial
  | function f => exact apply hexecute ht hv hvs
  | «class» k => exact construct hexecute ht k hvs
  | _ => exact runtime ht _ _

theorem call (hexecute : τ.Executes execute) (ht : t.At τ flags) (hv : t.heap.Knows τ v) (paren : Token)
    (hvs : ∀ v ∈ vs, t.heap.Knows τ v) :
    Tracks τ flags (HeapFold.Knows τ) (call execute v paren vs) (call execute v paren vs) t := by
  refine get ?_
  rw [ht.callable? hv,ht.depth]
  cases t.left.heap.callable? v with
  | none => exact runtime ht _ _
  | some found =>
    dsimp only
    split
    · exact runtime ht _ _
    · split
      · exact note _ ht fun u hu _ _ => .error u hu (.refl u)
      · exact nested ht fun u hu hheap => invoke hexecute hu (hheap ▸ hv) paren (hheap ▸ hvs)

/-! ### Classes -/

variable {evaluate : Expr → Eval Value} {e e' : Option Expr}

theorem superclassOf (hevaluate : τ.Evaluates evaluate) (ht : t.At τ flags) (name : Token)
    (he : Expr.OptionFolds τ flags e e') :
    Tracks τ flags (fun _ k => k.isSome = e.isSome) (superclassOf evaluate name e) (superclassOf evaluate name e')
      t := by
  cases he with
  | none => exact pure ht rfl
  | some he =>
    refine (hevaluate he ht).bind fun v u hu _ _ => ?_
    cases v with
    | «class» k => exact pure hu rfl
    | _ => cases he <;> exact runtime hu _ _

theorem addMethods {ds ds' : List FunctionDecl} (hds : Stmt.FunctionsFold τ (false :: flags') ds ds')
    (ht : t.At τ flags) (hfollows : t.heap.Follows flags' k) :
    Tracks τ flags (fun p fs => ∀ x f, (x,f) ∈ fs → p.Closes τ [false] f) (addMethods k ds)
      (addMethods (t.place k) ds') t := by
  induction ds generalizing ds' t with
  | nil =>
    cases hds
    exact pure ht (by simp)
  | cons d ds ih =>
    cases hds with
    | @cons _ _ d' _ ds' hd hds =>
      rw [Eval.addMethods,Eval.addMethods,hd.name]
      let g : Function := ⟨d,k,d.name.lexeme == "init"⟩
      let g' : Function := ⟨d',t.place k,d.name.lexeme == "init"⟩
      have hgrows := HeapFold.Grows.addFunction t.heap g g'
      have hsame : (t.right.heap.addFunction g').1 = (t.left.heap.addFunction g).1 :=
        congrArg FunctionId.mk ht.heap.functions
      refine allocate ht (ht.heap.addFunction g g') hgrows rfl rfl fun u hu _ hheap => ?_
      have hgrows' : t.heap.Grows u.heap := hheap ▸ hgrows
      have hnew : u.heap.Closes τ [false] ⟨t.left.heap.functions.size⟩ :=
        hheap ▸ ht.heap.closes_new rfl rfl hfollows hd
      rw [hsame,show t.place k = u.place k from (hgrows'.place k hfollows.inRange).symm]
      refine (ih hds hu (hfollows.mono ht.heap hgrows')).bind fun fs w hw hlater hfs => pure hw ?_
      intro x f hf
      rcases List.mem_cons.mp hf with heq | hf
      · obtain ⟨-,rfl⟩ := Prod.mk.inj heq
        exact hnew.mono hu.heap hlater.heap
      · exact hfs x f hf

/-- The scope that holds the superclass is kept. -/
theorem methodScope {f g : ScopeId → Eval β} (ht : t.At τ flags) (parent : Option ClassId)
    (h : ∀ u k, u.At τ flags → t.Later u → u.heap.Follows (Renaming.aroundReceiver flags parent.isSome) k →
      Tracks τ flags R (f k) (g (u.place k)) u) :
    Tracks τ flags R (Eval.methodScope parent >>= f) (Eval.methodScope parent >>= g) t := by
  cases parent with
  | none =>
    have hscope := h t t.left.scope ht (.refl t) ht.follows
    rw [← ht.scope] at hscope
    exact hscope
  | some c =>
    let b := (∅ : Bindings Value).insert "super" (.class c)
    have hparent : t.heap.Knows τ (.class c) := trivial
    have hp : (t.heap.addScope b t.left.scope).Sound τ := ht.heap.addSingle hparent "super" t.left.scope
    have hnew := ht.heap.enter b ht.follows
    have hallocated : Tracks τ flags R (Eval.allocate (·.addScope ⟨b,some t.left.scope⟩) >>= f)
        (Eval.allocate (·.addScope ⟨b,some (t.place t.left.scope)⟩) >>= g) t := by
      refine allocate ht hp (.addScope t.heap b t.left.scope) rfl rfl fun u hu hlater hheap => ?_
      have hplace : u.place ⟨t.left.heap.scopes.size⟩ = ⟨t.right.heap.scopes.size⟩ :=
        (congrArg (HeapFold.place · ⟨t.left.heap.scopes.size⟩) hheap).trans (if_pos rfl)
      have hinside := h u ⟨t.left.heap.scopes.size⟩ hu hlater (hheap ▸ hnew)
      rwa [hplace] at hinside
    rw [← ht.scope] at hallocated
    exact hallocated

/-- A name that is bound in the current scope is found there. -/
theorem changeHolder (ht : t.At τ flags) (hflag : flags.headD false = false)
    (hbinds : t.left.heap.Binds t.left.scope tok.lexeme) (c : ClassId) :
    Tracks τ flags (fun _ _ => True)
      (match t.left.heap.holder? t.left.scope tok.lexeme with
        | some holder => changeHeap (·.define holder tok.lexeme (.class c))
        | none => Eval.runtime (.undefinedVariable tok.lexeme) tok)
      (match t.right.heap.holder? t.right.scope tok.lexeme with
        | some holder => changeHeap (·.define holder tok.lexeme (.class c))
        | none => Eval.runtime (.undefinedVariable tok.lexeme) tok) t := by
  obtain ⟨v,hv⟩ := Option.isSome_iff_exists.mp hbinds
  have hkept : t.spare t.left.scope = false := ht.follows.here.trans hflag
  have hv' : (t.right.heap.getScope t.right.scope).bindings.find? tok.lexeme = some v := by
    rw [ht.scope]
    exact (congrArg (Bindings.find? · tok.lexeme) (ht.heap.bindings _ ht.follows.inRange hkept)).trans hv
  have hroot : 0 < t.left.heap.scopes.size := ht.heap.root
  have hroot' : 0 < t.right.heap.scopes.size := Nat.zero_lt_of_lt (ht.heap.inRange _ hroot)
  rw [Heap.holder?_here hroot hv,Heap.holder?_here hroot' hv',ht.scope]
  have hgrows := HeapFold.Grows.define t.heap t.left.scope tok.lexeme (.class c)
  have hp := ht.heap.define (x := tok.lexeme) (v := .class c) ht.follows.inRange hkept trivial
  exact .ok (t.withHeap _) (ht.withHeap hp hgrows) (.withHeap hgrows) trivial

theorem defineClass {ds ds' : List FunctionDecl} (ht : t.At τ flags) (hflag : flags.headD false = false)
    (tok : Token) (parent : Option ClassId)
    (hds : Stmt.FunctionsFold τ (false :: Renaming.aroundReceiver flags parent.isSome) ds ds') :
    Tracks τ flags (fun _ _ => True) (defineClass tok parent ds) (defineClass tok parent ds') t := by
  refine define ht hflag trivial fun u hu hdefined hheap => ?_
  have hbinds : u.left.heap.Binds u.left.scope tok.lexeme := by
    have hleft : u.left.heap = t.left.heap.define t.left.scope tok.lexeme .nil := congrArg HeapFold.left hheap
    rw [hleft,hdefined.scope]
    exact (Heap.binds_define _ _ _ _ _ _).mpr (.inl ⟨rfl,ht.follows.inRange,rfl⟩)
  refine methodScope hu parent fun w k hw hlater hk => ?_
  refine (addMethods hds hw hk).bind fun fs z hz hlater' hfs => ?_
  have hclass (x : String) (f : FunctionId) (hf : (Bindings.ofList fs).find? x = some f) :
      z.heap.Closes τ [false] f :=
    hfs x f (Bindings.mem_of_find?_ofList hf)
  let c : Class := ⟨tok.lexeme,parent,.ofList fs⟩
  have hsame : (z.right.heap.addClass c).1 = (z.left.heap.addClass c).1 :=
    congrArg ClassId.mk (congrArg Array.size hz.heap.classes)
  refine allocate hz (hz.heap.addClass hclass) (.addClass z.heap c) rfl rfl fun y hy hlater'' _ => ?_
  have hall := (hlater.trans hlater').trans hlater''
  rw [hsame]
  refine get (changeHolder hy hflag ?_ _)
  rw [hall.scope]
  exact hall.heap.left.binds _ _ hbinds

end Eval.Tracks

end Lox

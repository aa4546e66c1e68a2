import Lox.Proofs.Scoping.Receiver
import Lox.Proofs.Session.Lasting

/-! What `this` stands for in the calls of a method that has been bound to an instance. -/
namespace Lox

open Eval

/-- The function is a method that has been bound to the instance. -/
structure Heap.BoundTo (h : Heap) (g : FunctionId) (i : InstanceId) : Prop where
  inRange : g.index < h.functions.size
  this : (h.getScope (h.getFunction g).closure).bindings.find? "this" = some (.instance i)

/-- The scopes in which the body of a function is executed: those of its calls, those of the blocks in it, and those of
the functions that are declared in it. -/
inductive Inner (runs : List Run) (g : FunctionId) : ScopeId → Prop
  | call {r n vs m} (hr : r ∈ runs) (hv : Visits r (.apply n g vs) m) : Inner runs g ⟨m.heap.scopes.size⟩
  | block {r n body m} (hr : r ∈ runs) (hv : Visits r (.stmt (n + 1) (.block body)) m) (h : Inner runs g m.scope) :
    Inner runs g ⟨m.heap.scopes.size⟩
  | closure {r n f vs m} (hr : r ∈ runs) (hv : Visits r (.apply n f vs) m)
    (h : Inner runs g (m.heap.getFunction f).closure) : Inner runs g ⟨m.heap.scopes.size⟩

/-- Whenever `this` is evaluated in the body of the function, it is the instance. -/
def Receiver (runs : List Run) (g : FunctionId) (i : InstanceId) : Prop :=
  ∀ r ∈ runs, ∀ n id keyword m, Visits r (.expr (n + 1) (.this id keyword)) m → Inner runs g m.scope →
    evaluate (n + 1) (.this id keyword) m = .ok (.instance i) m

variable {runs : List Run} {programs : List (List Stmt)} {s : Session} {r : Run} {w : Work} {m m' : Machine}
  {h h' : Heap} {n : Nat} {f g : FunctionId} {i : InstanceId} {vs : List Value}

/-- The body of a function starts in the scope of the call. -/
theorem Inner.body (hr : r ∈ runs) (hv : Visits r (.apply n g vs) m) :
    Inner runs g (m.calling g vs).scope := by
  have hscope : (m.calling g vs).scope = ⟨m.heap.scopes.size⟩ := rfl
  exact hscope ▸ .call hr hv

theorem Heap.inRange_of_find? {j : ScopeId} {name : String} {v : Value}
    (hv : (h.getScope j).bindings.find? name = some v) : j.index < h.scopes.size := by
  refine Nat.lt_of_not_le fun hout => ?_
  simp [getScope,Array.getElem?_eq_none hout,default] at hv

/-- What is found for `this` or `super` is found later too. -/
theorem Heap.Nearest.later {name : String} {j : ScopeId} {v : Value} (hv : h.Nearest name j v) (hextends : h.Extends h')
    (hretains : h.Retains h') (hname : name = "this" ∨ name = "super") : h'.Nearest name j v := by
  induction hv with
  | here hv => exact .here ((hretains.holds name hname _ (inRange_of_find? hv)).trans hv)
  | @outward j k v hnone hk _ ih =>
    have hj : j.index < h.scopes.size := by
      refine Nat.lt_of_not_le fun hout => ?_
      simp [getScope,Array.getElem?_eq_none hout,default] at hk
    exact .outward ((hretains.holds name hname j hj).trans hnone) ((hextends.enclosing j hj).trans hk) ih

/-- A bound method is the method, but closes over the scope of its receiver. -/
theorem Heap.getFunction_bind (h : Heap) (f : FunctionId) (i : InstanceId) :
    (h.bind f i).2.getFunction (h.bind f i).1 = { h.getFunction f with closure := ⟨h.scopes.size⟩ } := by
  simp only [Heap.bind,getFunction_addFunction]
  exact if_pos rfl

namespace Heap.BoundTo

theorem later (hg : h.BoundTo g i) (hextends : h.Extends h') (hretains : h.Retains h') : h'.BoundTo g i where
  inRange := Nat.lt_of_lt_of_le hg.inRange hextends.functions
  this := by
    rw [hextends.function g hg.inRange,hretains.holds "this" (.inl rfl) _ (inRange_of_find? hg.this)]
    exact hg.this

theorem bind (h : Heap) (f : FunctionId) (i : InstanceId) : (h.bind f i).2.BoundTo (h.bind f i).1 i where
  inRange := by simp [Heap.bind,Heap.addFunction,Heap.addScope]
  this := by
    have hscope : (h.bind f i).2.getScope ⟨h.scopes.size⟩ =
        ⟨(∅ : Bindings Value).insert "this" (.instance i),some (h.getFunction f).closure⟩ := getScope_new h _
    rw [getFunction_bind,hscope,Bindings.find?_insert_self]

end Heap.BoundTo

namespace Reached

variable (hs : Reached runs programs s) (hids : s.ids.allocated ≤ 2 ^ 32)
include hs hids

/-- What a heap has of receivers and classes is kept to the present. -/
theorem retains (hr : r ∈ runs) (hv : Visits r w m) : m.heap.Retains s.machine.heap := by
  obtain ⟨h₀,hcourse⟩ := hs.course hids
  exact hcourse.retained ⟨r,hr,hv⟩

/-- A method that has been bound in the course of a run is bound still. -/
theorem bound (hr : r ∈ runs) (hv : Visits r (.bind f i) m) : s.machine.heap.BoundTo (m.heap.bind f i).1 i := by
  obtain ⟨h₀,hcourse⟩ := hs.course hids
  exact (Heap.BoundTo.bind m.heap f i).later (hs.kept_after hr hv).toExtends (hcourse.behind _ m ⟨r,hr,hv⟩)

/-- Only scopes that were made for receivers hold one. -/
theorem holds_no_receiver {site : Site} {j : ScopeId} (hj : Activation runs site j)
    (hsite : ∀ method, site ≠ .receiver method) : (s.machine.heap.getScope j).bindings.find? "this" = none := by
  obtain ⟨h₀,hcourse⟩ := hs.course hids
  obtain ⟨r,hr,w,m,hv,hopens,rfl⟩ := hj
  obtain ⟨earlier,-,hmet⟩ := (hs.orderly hids).visits hr hv
  have hlt : m.heap.scopes.size < (w.opened m).scopes.size := by
    cases hopens <;> simp [Work.opened,Machine.inNew,Machine.calling,Machine.binding,Machine.note,Heap.bind,
      Heap.addScope,Heap.addFunction]
  rw [(hcourse.behind w m ⟨r,hr,hv⟩).holds "this" (.inl rfl) ⟨m.heap.scopes.size⟩ hlt]
  cases site with
  | block body => exact hopens.block_holds "this"
  | call d => exact hopens.call_holds hmet (.inl rfl)
  | receiver method => exact absurd rfl (hsite method)
  | superclass name methods =>
    obtain ⟨c,-,hbindings⟩ := hopens.superclass_holds
    rw [hbindings,Bindings.find?_insert,if_neg (by decide),Bindings.find?_emptyCollection]

/-- From the scope of a call, the search goes on where the function was declared or bound. -/
theorem call_nearest (hr : r ∈ runs) (hv : Visits r (.apply n f vs) m)
    (hnearest : s.machine.heap.Nearest "this" (m.heap.getFunction f).closure (.instance i)) :
    s.machine.heap.Nearest "this" ⟨m.heap.scopes.size⟩ (.instance i) := by
  have hkept := (hs.kept hr (hv.step .body)).enclosing ⟨m.heap.scopes.size⟩ (by
    simp [Machine.calling,Machine.inNew,Machine.note,Heap.addScope])
  have hnew := congrArg Scope.enclosing (Heap.getScope_new m.heap ⟨.ofList
    (((m.heap.getFunction f).declaration.parameters.map Token.lexeme).zip vs),some (m.heap.getFunction f).closure⟩)
  exact .outward (hs.holds_no_receiver hids ⟨r,hr,_,m,hv,.call,rfl⟩ (by simp)) (hkept.trans hnew) hnearest

/-- From the scope of a block, the search goes on in the scope around it. -/
theorem block_nearest {body : List Stmt} (hr : r ∈ runs) (hv : Visits r (.stmt (n + 1) (.block body)) m)
    (hnearest : s.machine.heap.Nearest "this" m.scope (.instance i)) :
    s.machine.heap.Nearest "this" ⟨m.heap.scopes.size⟩ (.instance i) := by
  have hkept := (hs.kept hr (hv.step .block)).enclosing ⟨m.heap.scopes.size⟩ (by simp [Machine.inNew,Heap.addScope])
  have hnew := congrArg Scope.enclosing (Heap.getScope_new m.heap ⟨∅,some m.scope⟩)
  exact .outward (hs.holds_no_receiver hids ⟨r,hr,_,m,hv,.block,rfl⟩ (by simp)) (hkept.trans hnew) hnearest

/-- Wherever the calls of a bound method lead, its receiver is the nearest one. -/
theorem inner_nearest (hg : s.machine.heap.BoundTo g i) {j : ScopeId} (hj : Inner runs g j) :
    s.machine.heap.Nearest "this" j (.instance i) := by
  induction hj with
  | @call r n vs m hr hv =>
    obtain ⟨earlier,-,hmet⟩ := (hs.orderly hids).visits hr hv
    obtain ⟨-,⟨hlt,-⟩,-⟩ := hmet.typed
    refine hs.call_nearest hids hr hv (.here ?_)
    rw [← (hs.kept hr hv).function g hlt]
    exact hg.this
  | block hr hv _ ih => exact hs.block_nearest hids hr hv ih
  | closure hr hv _ ih => exact hs.call_nearest hids hr hv ih

/-- The scope that scoping finds for `this` is the nearest one that holds a receiver. -/
theorem chain_nearest {h : Heap} (hretains : h.Retains s.machine.heap) {frames : List Frame} {j k : ScopeId}
    {d distance : Nat} {v : Value} (hchain : Chain runs h frames j)
    (hsites : ∀ e < d, ∀ method, (frames.map Frame.site)[e]? ≠ some (.receiver method)) (hlength : d < frames.length)
    (hk : h.outward distance d j = .ok k) (hv : (h.getScope k).bindings.find? "this" = some v) :
    h.Nearest "this" j v := by
  induction d generalizing frames j with
  | zero =>
    obtain rfl := Except.ok.inj hk
    exact .here hv
  | succ d ih =>
    cases hchain with
    | nil => simp at hlength
    | @cons f frames _ l hj hl _ hsite houter =>
      rw [Heap.outward] at hk
      simp only [hl] at hk
      have hmethod (method : FunctionDecl) : f.site ≠ .receiver method := fun hmethod =>
        hsites 0 (Nat.succ_pos d) method (by simp [hmethod])
      have hnone : (h.getScope j).bindings.find? "this" = none :=
        (hretains.holds "this" (.inl rfl) j hj).symm.trans (hs.holds_no_receiver hids hsite hmethod)
      refine .outward hnone hl (ih houter (fun e he method => ?_) (by simpa using hlength) hk)
      have hnext := hsites (e + 1) (Nat.succ_lt_succ he) method
      rwa [List.map_cons,List.getElem?_cons_succ] at hnext

/-- Whenever and wherever a bound method is called, `this` in its body is the instance that it was bound to. -/
theorem receiver (hg : s.machine.heap.BoundTo g i) : Receiver runs g i := by
  intro r hr n id keyword m hv hinner
  have horderly := hs.orderly hids
  have hretains := hs.retains hids hr hv
  obtain ⟨earlier,hearlier,hmet⟩ := horderly.visits hr hv
  obtain ⟨c,hat,p,hp,hpart⟩ := hmet.typed
  have hkeyword : keyword.lexeme = "this" := hpart.proper
  obtain ⟨hrecorded,hclass⟩ := hpart.this (hat.accepted p hp)
  obtain ⟨d,hd⟩ := Option.isSome_iff_exists.mp (hat.coherent.receiver hclass)
  obtain ⟨k,v,-,hancestor,hlookup,hfound,-⟩ := hat.lookupAt hd fun hinit => (hat.coherent.fresh _ hinit).1 rfl
  obtain ⟨hprogram,haccepted⟩ := horderly.started p (hearlier hp)
  have hsites (e : Nat) (he : e < d) (method : FunctionDecl) : c.sites[e]? ≠ some (.receiver method) :=
    hrecorded.innermost haccepted (horderly.proper _ hprogram) (horderly.apart.once _ hprogram) hd he method
  obtain ⟨f,hf,-⟩ := Context.frame_of_depth? hd
  have hnearest : m.heap.Nearest "this" m.scope v := hs.chain_nearest hids hretains (hat.chain.mono hearlier) hsites
    (List.getElem?_eq_some_iff.mp hf).1 hancestor hfound
  -- What scoping finds is the nearest receiver, and so is the one that the method has been bound to.
  obtain rfl := (hnearest.later (hs.kept hr hv).toExtends hretains (.inl rfl)).unique (hs.inner_nearest hids hg hinner)
  have hfind := (hat.tabled p hp _ _ _ hrecorded.finding).trans hd
  have hlookUp : evaluate (n + 1) (.this id keyword) m = _ := lookUp_eq id keyword m
  rw [hfind] at hlookUp
  simp only [hlookUp,hkeyword,Heap.getAt,hlookup]
  rfl

end Reached

end Lox

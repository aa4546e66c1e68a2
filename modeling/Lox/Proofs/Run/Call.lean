import Lox.Proofs.Run.Step

/-! Calls: methods are bound to their instances, and the body of a function starts in a scope that has
exactly its parameters. -/
namespace Lox

open Eval

namespace Bindings

variable {α : Type}

theorem contains_foldl (b : Bindings α) (pairs : List (String × α)) (name : String) :
    (pairs.foldl (fun b (name,value) => b.insert name value) b).contains name ↔
      b.contains name ∨ name ∈ pairs.map Prod.fst := by
  induction pairs generalizing b with
  | nil => simp
  | cons p pairs ih =>
    rw [List.foldl_cons,ih,contains_insert]
    by_cases hp : name = p.1
    · simp [hp]
    · simp [hp]

theorem contains_ofList (pairs : List (String × α)) (name : String) :
    (ofList pairs).contains name ↔ name ∈ pairs.map Prod.fst := by
  refine (contains_foldl empty pairs name).trans ?_
  simp [contains]

theorem mem_of_find?_foldl {b : Bindings α} {pairs : List (String × α)} {name : String} {v : α}
    (h : (pairs.foldl (fun b (name,value) => b.insert name value) b).find? name = some v) :
    b.find? name = some v ∨ (name,v) ∈ pairs := by
  induction pairs generalizing b with
  | nil => exact .inl h
  | cons p pairs ih =>
    rcases ih h with h | h
    · rw [find?_insert] at h
      split at h
      next heq =>
        obtain rfl := Option.some.inj h
        exact .inr (by simp [heq])
      next => exact .inl h
    · exact .inr (List.mem_cons_of_mem p h)

theorem mem_of_find?_ofList {pairs : List (String × α)} {name : String} {v : α}
    (h : (ofList pairs).find? name = some v) : (name,v) ∈ pairs := by
  rcases mem_of_find?_foldl h with h | h
  · simp at h
  · exact h

end Bindings

variable {runs : List Run} {r : Run} {m m' : Machine} {n : Nat} {w : Work}

theorem Ready.finished (h : Ready runs m) {P : String → Prop} (hf : Finished runs P m m') :
    Ready runs m' :=
  h.later hf.later.distances hf.good

/-! ### Binding a method -/

/-- A method that has been bound can be called. -/
theorem Met.bound {f : FunctionId} {i : InstanceId} (h : Met runs r (.bind f i) m) :
    Finished runs (fun _ => False) m (m.binding f i) ∧
      Valid runs (m.binding f i).heap (.function (m.heap.bind f i).1) ∧
      ((m.binding f i).heap.getFunction (m.heap.bind f i).1).arity = (m.heap.getFunction f).arity := by
  obtain ⟨hready,-,p,c,context,hmethod⟩ := h.typed
  let s : Scope := ⟨(∅ : Bindings Value).insert "this" (.instance i),some (m.heap.getFunction f).closure⟩
  let g : Function := { m.heap.getFunction f with closure := ⟨m.heap.scopes.size⟩ }
  have hbinding : (m.binding f i).heap = ((m.heap.addScope s).2.addFunction g).2 := rfl
  have hnew : (m.binding f i).heap.getFunction (m.heap.bind f i).1 = g := by
    rw [hbinding,Heap.getFunction_addFunction]
    exact if_pos rfl
  have hgrown : (m.heap.addScope s).2.Extends (m.binding f i).heap := .addFunction _ g
  have hsound : Sound runs m.heap s.bindings :=
    Sound.empty.insert trivial (fun _ => ⟨i,rfl⟩) (fun heq => by simp at heq)
  have hgood := (hready.good.addScope hsound).addFunction g
  refine ⟨⟨?_,hgood⟩,⟨?_,p,c.receiving g.declaration,context,?_⟩,?_⟩
  · exact (Later.addScope s).same_trans (.of_heap hgrown rfl rfl rfl)
  · simp [hbinding,Heap.addFunction,Heap.bind,Heap.addScope]
  · rw [hnew]
    refine ⟨hmethod.run,hmethod.coherent,rfl,hmethod.part,?_,fun _ => ⟨_,rfl,?_⟩⟩
    · have hsite : Activation runs (.receiver g.declaration) ⟨m.heap.scopes.size⟩ :=
        ⟨r,h.member,_,m,h.visits,.receiver,rfl⟩
      refine (hmethod.chain.enter (s := s) rfl (fun name hname => ?_) hsite).extends hgrown
      rw [Context.find?_single] at hname
      split at hname
      next heq => simp [s,heq,Bindings.contains]
      next => simp at hname
    · simp
  · rw [hnew]
    rfl

/-! ### Applying a function -/

theorem Met.apply_step {f : FunctionId} {vs : List Value} (h : Met runs r (.apply n f vs) m)
    (hs : Starts (.apply n f vs) m w m') : Met runs r w m' := by
  apply h.of_starts hs
  obtain ⟨hready,⟨-,p,c,context,hf⟩,hvalids,harity⟩ := h.typed
  cases hs with
  | body =>
    have hproper := (Stmt.functionProper_iff _).mp hf.part.proper
    have hcoherent := hf.coherent.calling hf.settled hproper.2.1 context
    have hsite : Activation runs (.call (m.heap.getFunction f).declaration) ⟨m.heap.scopes.size⟩ :=
      ⟨r,h.member,_,m,h.visits,.call,rfl⟩
    have hready' : Ready runs (m.note (.functionCalled (m.heap.getFunction f).name)) :=
      hready.of_eq rfl rfl
    refine ⟨_,At.enter hready' hcoherent rfl rfl hf.chain ⟨?_,?_,?_⟩ hsite ?_,rfl,p,hf.run,hf.part.body⟩
    · intro name v hv
      have hmem := (List.of_mem_zip (Bindings.mem_of_find?_ofList hv)).2
      exact hvalids v hmem
    · intro v hv
      have hmem := (List.of_mem_zip (Bindings.mem_of_find?_ofList hv)).1
      obtain ⟨t,ht,hthis⟩ := List.mem_map.mp hmem
      exact absurd hthis (hproper.2.1 t ht).1
    · intro v hv
      have hmem := (List.of_mem_zip (Bindings.mem_of_find?_ofList hv)).1
      obtain ⟨t,ht,hsuper⟩ := List.mem_map.mp hmem
      exact absurd hsuper (hproper.2.1 t ht).2
    · intro name
      have hlength : ((m.heap.getFunction f).declaration.parameters.map Token.lexeme).length ≤
          vs.length := by
        rw [List.length_map]
        exact Nat.le_of_eq harity
      rw [Bindings.contains_ofList,List.map_fst_zip hlength,Context.find?_parameters_iff]
      simp

/-- An initializer gives its instance, which is bound where it closes over. -/
theorem Closes.callResult {f : Function} {p : Run} {c : Context} {context : FunctionContext}
    (hf : Closes runs m.heap f p c context) (hgood : Good runs m.heap) {flow : Flow}
    (hflow : flow.Valid runs m.heap) :
    ∃ v, Eval.callResult f flow m = .ok v m ∧ Valid runs m.heap v := by
  simp only [Eval.callResult]
  split
  next hinit =>
    obtain ⟨g,hg,hthis⟩ := hf.receiver hinit
    rw [List.head?_eq_getElem?] at hg
    obtain ⟨k,v,-,-,hlookup,hv⟩ := hf.chain.lookupAt hg hthis
    have hget : m.heap.getAt f.closure 0 "this" = .ok v := by rw [Heap.getAt,hlookup]; rfl
    refine ⟨v,?_,(hgood.scope k).valid "this" v hv⟩
    show checked (m.heap.getAt f.closure 0 "this") m = _
    rw [hget]
    rfl
  next =>
    cases flow with
    | normal => exact ⟨.nil,rfl,trivial⟩
    | returned v => exact ⟨v,rfl,hflow⟩

theorem Safe.apply (hn : Safe runs r n) {f : FunctionId} {vs : List Value}
    (h : Met runs r (.apply n f vs) m) :
    Finishes runs r (fun _ => False) (Eval.apply (executeEach (execute n)) f vs) m
      fun v h => Valid runs h v := by
  obtain ⟨hready,⟨-,p,c,context,hf⟩,-⟩ := h.typed
  have hnoted : Finished runs (fun _ => False) m
      (m.note (.functionCalled (m.heap.getFunction f).name)) := ⟨.of_eq rfl rfl rfl,hready.good⟩
  have hbody := (hn.stmts (h.apply_step .body)).inNew
  refine .after_same (y := _ >>= Eval.callResult (m.heap.getFunction f)) rfl hnoted
    (hbody.bind_same fun flow m₁ _ hfinished hflow => ?_)
  have hf₁ := hf.extends hfinished.later.heap
  obtain ⟨v,hv,hvalid⟩ := hf₁.callResult hfinished.good hflow
  exact .of_ok hv ⟨.refl _ m₁,hfinished.good⟩ hvalid

/-! ### Calling a value -/

theorem Met.invoke_step {f : Value} {paren : Token} {vs : List Value}
    (h : Met runs r (.invoke n f paren vs) m) (hs : Starts (.invoke n f paren vs) m w m') :
    Met runs r w m' := by
  apply h.of_starts hs
  obtain ⟨hready,hf,hvalids,name,hcallable⟩ := h.typed
  cases hs with
  | function =>
    have harity := congrArg Prod.snd (Option.some.inj hcallable)
    exact ⟨hready,hf,hvalids,harity⟩
  | @initializer _ c _ _ _ _ hfound =>
    have hgood := hready.good.addInstance c
    exact ⟨hready.later rfl hgood,hgood.findMethod hfound⟩
  | @construction _ c _ _ _ f hfound =>
    have hgood := hready.good.addInstance c
    have hbind := h.of_starts (.initializer hfound)
      ⟨hready.later rfl hgood,hgood.findMethod hfound⟩
    obtain ⟨hfinished,hbound,harity⟩ := hbind.bound
    have hmade : Ready runs (m.constructing c) := hready.later rfl hgood
    have hready' := hmade.finished hfinished
    have hgrown : m.heap.Extends (m.constructing c).heap := .of_eq rfl rfl
    refine ⟨hready',hbound,fun v hv => ?_,harity.trans ?_⟩
    · exact (hvalids v hv).extends (hgrown.trans hfinished.later.heap)
    · have hclass := congrArg Prod.snd (Option.some.inj hcallable)
      have hclasses : (m.constructing c).heap.classes = m.heap.classes := rfl
      have hmethod := (Heap.findMethod?_congr hclasses c "init").symm.trans hfound
      simp only [Heap.classArity,hmethod] at hclass
      exact hclass

theorem construct_eq (execute : List Stmt → Eval Flow) (c : ClassId) (vs : List Value) (m : Machine) :
    Eval.construct execute c vs m =
      (match (m.constructing c).heap.findMethod? c "init" with
        | none => return .instance ⟨m.heap.instances.size⟩
        | some f => do
          let _ ← Eval.apply execute (← allocate (·.bind f ⟨m.heap.instances.size⟩)) vs
          return .instance ⟨m.heap.instances.size⟩ : Eval Value) (m.constructing c) :=
  rfl

theorem construct_none (execute : List Stmt → Eval Flow) {c : ClassId} (vs : List Value)
    (h : (m.constructing c).heap.findMethod? c "init" = none) :
    Eval.construct execute c vs m = .ok (.instance ⟨m.heap.instances.size⟩) (m.constructing c) := by
  rw [construct_eq,h]
  rfl

theorem construct_some (execute : List Stmt → Eval Flow) {c : ClassId} (vs : List Value) {f : FunctionId}
    (h : (m.constructing c).heap.findMethod? c "init" = some f) : Eval.construct execute c vs m =
      (do
        let _ ← Eval.apply execute ((m.constructing c).heap.bind f ⟨m.heap.instances.size⟩).1 vs
        return .instance ⟨m.heap.instances.size⟩ : Eval Value)
        ((m.constructing c).binding f ⟨m.heap.instances.size⟩) := by
  rw [construct_eq,h]
  rfl

theorem Safe.invoke (hn : Safe runs r n) {f : Value} {paren : Token} {vs : List Value}
    (h : Met runs r (.invoke n f paren vs) m) :
    Finishes runs r (fun _ => False) (Eval.invoke (executeEach (execute n)) f paren vs) m
      fun v h => Valid runs h v := by
  have hready := h.typed.1
  cases f with
  | native f => exact .of_ok rfl ⟨.of_eq rfl rfl rfl,hready.good⟩ trivial
  | function f => exact hn.apply (h.invoke_step .function)
  | «class» c =>
    have hgood := hready.good.addInstance c
    have hmade : Finished runs (fun _ => False) m (m.constructing c) :=
      ⟨.of_heap (.of_eq rfl rfl) rfl rfl rfl,hgood⟩
    let i : InstanceId := ⟨m.heap.instances.size⟩
    cases hfound : (m.constructing c).heap.findMethod? c "init" with
    | none => exact .of_ok (construct_none _ vs hfound) hmade trivial
    | some f =>
      have hbound := (h.invoke_step (.initializer hfound)).bound.1
      have happly := hn.apply (h.invoke_step (.construction hfound))
      have hreceived := hmade.trans hbound (fun _ hname => hname) fun _ hname => hname
      refine .after_same (construct_some _ vs hfound) hreceived (happly.bind_same fun _ m₁ _ hfinished _ => ?_)
      exact .of_ok rfl ⟨.refl _ m₁,hfinished.good⟩ trivial
  | _ => exact .runtime hready.good _ _

end Lox

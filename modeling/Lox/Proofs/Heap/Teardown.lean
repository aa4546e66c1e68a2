import Lox.Heap.Teardown
import Mathlib.Logic.Relation

/-! A traversal that empties what it visits comes to an end, and it has then emptied exactly what could be
reached at its start. -/
namespace Lox

/-- An object of the heap. -/
inductive Node
  | scope (i : ScopeId)
  | function (f : FunctionId)
  | class (c : ClassId)
  | instance (i : InstanceId)
deriving DecidableEq

/-- The object that a value refers to. -/
def Value.node? : Value → Option Node
  | .function f => some (.function f)
  | .class c => some (.class c)
  | .instance i => some (.instance i)
  | _ => none

namespace Heap

/-- The objects that an object refers to: a scope to those it binds and to the one around it, a function to its
closure, a class to its methods and its superclass, and an instance to its fields and its class. -/
def successors (h : Heap) : Node → List Node
  | .scope i =>
    (h.getScope i).bindings.values.filterMap Value.node? ++ (h.getScope i).enclosing.toList.map .scope
  | .function f => [.scope (h.getFunction f).closure]
  | .class c => (h.getClass c).methods.values.map .function ++ (h.getClass c).superclass.toList.map .class
  | .instance i => (h.getInstance i).fields.values.filterMap Value.node? ++ [.class (h.getInstance i).ofClass]

/-- What can be reached from some scopes. -/
inductive Reaches (h : Heap) (roots : List ScopeId) : Node → Prop
  | root {i} (hi : i ∈ roots) : Reaches h roots (.scope i)
  | step {x y} (hx : Reaches h roots x) (hy : y ∈ h.successors x) : Reaches h roots y

/-- A class is made after its superclass. -/
def Ordered (h : Heap) : Prop := ∀ c p, (h.getClass c).superclass = some p → p.index < c.index

end Heap

variable {h : Heap} {roots : List ScopeId} {s : Sweep} {done : Node → Prop}

/-! ### Emptying -/

namespace Heap

theorem getScope_clearScope (h : Heap) (i j : ScopeId) :
    (h.clearScope i).getScope j = if i = j then ⟨∅,none⟩ else h.getScope j := by
  obtain ⟨i⟩ := i
  obtain ⟨j⟩ := j
  simp only [getScope,clearScope,Array.getElem?_modify,ScopeId.mk.injEq]
  by_cases hij : i = j
  · subst hij
    by_cases hi : i < h.scopes.size <;> simp [hi,default]
  · simp [hij]

theorem getInstance_clearFields (h : Heap) (i j : InstanceId) :
    (h.clearFields i).getInstance j =
      if i = j then { h.getInstance j with fields := ∅ } else h.getInstance j := by
  obtain ⟨i⟩ := i
  obtain ⟨j⟩ := j
  simp only [getInstance,clearFields,Array.getElem?_modify,InstanceId.mk.injEq]
  by_cases hij : i = j
  · subst hij
    by_cases hi : i < h.instances.size <;> simp [hi,default]
  · simp [hij]

end Heap

/-! ### What is visited -/

/-- Some objects have been visited and some are to be visited, among them all that the visited ones have
referred to. -/
structure Heap.Explored (h : Heap) (roots : List ScopeId) (done : Node → Prop) (awaiting : List Node) :
    Prop where
  sound : ∀ x, done x ∨ x ∈ awaiting → h.Reaches roots x
  closed : ∀ x, done x → ∀ y ∈ h.successors x, done y ∨ y ∈ awaiting
  roots : ∀ i ∈ roots, done (.scope i) ∨ .scope i ∈ awaiting

namespace Heap.Explored

variable {awaiting awaiting' added : List Node} {x : Node}

/-- The first object is visited, together with others perhaps, and some objects are added. -/
theorem visit (new : Node → Prop) (added : List Node) (he : h.Explored roots done (x :: awaiting)) (hx : new x)
    (hawaiting : ∀ y, y ∈ awaiting' ↔ y ∈ added ∨ y ∈ awaiting)
    (hnew : ∀ y, new y ∨ y ∈ added → h.Reaches roots y)
    (hsuccessors : ∀ y, new y → ∀ z ∈ h.successors y, done z ∨ new z ∨ z ∈ awaiting') :
    h.Explored roots (fun y => done y ∨ new y) awaiting' := by
  have hkept {y : Node} (hy : done y ∨ y ∈ x :: awaiting) : (done y ∨ new y) ∨ y ∈ awaiting' := by
    rcases hy with hy | hy
    · exact .inl (.inl hy)
    · rcases List.mem_cons.mp hy with rfl | hy
      · exact .inl (.inr hx)
      · exact .inr ((hawaiting y).mpr (.inr hy))
  refine ⟨fun y hy => ?_,fun y hy z hz => ?_,fun i hi => hkept (he.roots i hi)⟩
  · rcases hy with (hy | hy) | hy
    · exact he.sound y (.inl hy)
    · exact hnew y (.inl hy)
    · rcases (hawaiting y).mp hy with hy | hy
      · exact hnew y (.inr hy)
      · exact he.sound y (.inr (List.mem_cons_of_mem _ hy))
  · rcases hy with hy | hy
    · exact hkept (he.closed y hy z hz)
    · exact or_assoc.mpr (hsuccessors y hy z hz)

/-- An object that had not been visited leads to all that it refers to. -/
theorem visit_new (he : h.Explored roots done (x :: awaiting))
    (hawaiting : ∀ y, y ∈ awaiting' ↔ y ∈ h.successors x ∨ y ∈ awaiting) :
    h.Explored roots (fun y => done y ∨ y = x) awaiting' := by
  have hx : h.Reaches roots x := he.sound x (.inr List.mem_cons_self)
  refine he.visit (· = x) (h.successors x) rfl hawaiting ?_ ?_
  · rintro y (rfl | hy)
    · exact hx
    · exact hx.step hy
  · rintro _ rfl z hz
    exact .inr (.inr ((hawaiting z).mpr (.inl hz)))

/-- An object that had been visited before need not lead to anything. -/
theorem visit_again (he : h.Explored roots done (x :: awaiting)) (hx : done x) (hadded : added ⊆ h.successors x)
    (hawaiting : ∀ y, y ∈ awaiting' ↔ y ∈ added ∨ y ∈ awaiting) :
    h.Explored roots (fun y => done y ∨ y = x) awaiting' := by
  have hreached : h.Reaches roots x := he.sound x (.inl hx)
  refine he.visit (· = x) added rfl hawaiting ?_ ?_
  · rintro y (rfl | hy)
    · exact hreached
    · exact hreached.step (hadded hy)
  · rintro _ rfl z hz
    rcases he.closed _ hx z hz with hz | hz
    · exact .inl hz
    · rcases List.mem_cons.mp hz with rfl | hz
      · exact .inl hx
      · exact .inr (.inr ((hawaiting z).mpr (.inr hz)))

/-- When nothing is to be visited any more, everything that can be reached has been visited. -/
theorem done_iff (he : h.Explored roots done []) (x : Node) : done x ↔ h.Reaches roots x := by
  refine ⟨fun hx => he.sound x (.inl hx),fun hx => ?_⟩
  induction hx with
  | root hi => exact (he.roots _ hi).resolve_right List.not_mem_nil
  | step _ hy ih => exact (he.closed _ ih _ hy).resolve_right List.not_mem_nil

end Heap.Explored

/-- The objects on the stacks. -/
def Sweep.awaiting (s : Sweep) : List Node := s.values.filterMap Value.node? ++ s.pending.map .scope

/-- A traversal that has visited some objects: these are empty, and the others are as they were at first. Some
objects may have been taken from the stacks to be visited now. -/
structure Sweep.Partway (h : Heap) (roots : List ScopeId) (s : Sweep) (done : Node → Prop) (taken : List Node) :
    Prop where
  functions : s.heap.functions = h.functions
  classes : s.heap.classes = h.classes
  ofClass : ∀ i, (s.heap.getInstance i).ofClass = (h.getInstance i).ofClass
  emptied : ∀ i, done (.scope i) → s.heap.getScope i = ⟨∅,none⟩
  untouched : ∀ i, ¬done (.scope i) → s.heap.getScope i = h.getScope i
  stripped : ∀ i, done (.instance i) → (s.heap.getInstance i).fields = ∅
  unstripped : ∀ i, ¬done (.instance i) → (s.heap.getInstance i).fields = (h.getInstance i).fields
  seen : ∀ i : ScopeId, s.seen.contains i.index = true ↔ done (.scope i)
  cleared : ∀ i, i ∈ s.cleared ↔ done (.scope i)
  once : s.cleared.Nodup
  explored : h.Explored roots done (taken ++ s.awaiting)

namespace Sweep.Partway

variable {taken : List Node}

theorem start (h : Heap) (roots : List ScopeId) : Partway h roots (start h roots) (fun _ => False) [] where
  functions := rfl
  classes := rfl
  ofClass _ := rfl
  emptied _ := False.elim
  untouched _ _ := rfl
  stripped _ := False.elim
  unstripped _ _ := rfl
  seen i := by simp [Sweep.start]
  cleared i := by simp [Sweep.start]
  once := List.nodup_nil
  explored := by
    refine ⟨fun x hx => ?_,fun _ => False.elim,fun i hi => .inr ?_⟩
    · simp only [Sweep.start,awaiting,List.filterMap_nil,List.nil_append,List.mem_map,false_or] at hx
      obtain ⟨i,hi,rfl⟩ := hx
      exact .root hi
    · simpa [Sweep.start,awaiting] using hi

theorem reached (hp : Partway h roots s done taken) {x : Node} (hx : x ∈ taken) : h.Reaches roots x :=
  hp.explored.sound x (.inr (List.mem_append_left _ hx))

theorem explored_taken {x : Node} (hp : Partway h roots s done [x]) : h.Explored roots done (x :: s.awaiting) :=
  hp.explored

/-- Functions and classes are not emptied. -/
theorem leave {s' : Sweep} {new : Node → Prop} (hp : Partway h roots s done taken) (hheap : s'.heap = s.heap)
    (hseen : s'.seen = s.seen) (hcleared : s'.cleared = s.cleared)
    (hscope : ∀ i, new (.scope i) → done (.scope i)) (hinstance : ∀ i, new (.instance i) → done (.instance i))
    (he : h.Explored roots (fun x => done x ∨ new x) s'.awaiting) :
    Partway h roots s' (fun x => done x ∨ new x) [] where
  functions := hheap ▸ hp.functions
  classes := hheap ▸ hp.classes
  ofClass := hheap ▸ hp.ofClass
  emptied i hi := hheap ▸ hp.emptied i (hi.elim id (hscope i))
  untouched i hi := hheap ▸ hp.untouched i fun hd => hi (.inl hd)
  stripped i hi := hheap ▸ hp.stripped i (hi.elim id (hinstance i))
  unstripped i hi := hheap ▸ hp.unstripped i fun hd => hi (.inl hd)
  seen i := by rw [hseen,hp.seen i,or_iff_left_of_imp (hscope i)]
  cleared i := by rw [hcleared,hp.cleared i,or_iff_left_of_imp (hscope i)]
  once := hcleared ▸ hp.once
  explored := he

theorem getFunction (hp : Partway h roots s done taken) : s.heap.getFunction = h.getFunction := by
  funext f
  simp only [Heap.getFunction,hp.functions]

theorem getClass (hp : Partway h roots s done taken) : s.heap.getClass = h.getClass := by
  funext c
  simp only [Heap.getClass,hp.classes]

theorem visitFunction {f : FunctionId} (hp : Partway h roots s done [.function f]) :
    ∃ done', Partway h roots (s.visitValue (.function f)) done' [] := by
  refine ⟨_,hp.leave rfl rfl rfl (by simp) (by simp) (hp.explored_taken.visit_new fun y => ?_)⟩
  simp only [awaiting,visitValue,hp.getFunction,Heap.successors,List.map_cons,List.mem_append,List.mem_cons,
    List.not_mem_nil,or_false]
  exact or_left_comm

/-- With a class its methods are visited. -/
theorem visitClass {c : ClassId} (hp : Partway h roots s done [.class c]) :
    ∃ done', Partway h roots (s.visitValue (.class c)) done' [] := by
  let k := h.getClass c
  let methods := k.methods.values.map Node.function
  let added := (k.methods.values.map fun f => Node.scope (h.getFunction f).closure) ++
    k.superclass.toList.map Node.class
  have hc : h.Reaches roots (.class c) := hp.reached List.mem_cons_self
  have hmethod {x : Node} (hx : x ∈ methods) : h.Reaches roots x := hc.step (List.mem_append_left _ hx)
  have hawaiting (y : Node) : y ∈ (s.visitValue (.class c)).awaiting ↔ y ∈ added ∨ y ∈ s.awaiting := by
    simp only [awaiting,visitValue,hp.getFunction,hp.getClass,added,k,List.filterMap_append,List.map_append,
      List.mem_append,List.map_map,Function.comp_def]
    have hsuper : ((h.getClass c).superclass.toList.map Value.class).filterMap Value.node? =
        (h.getClass c).superclass.toList.map Node.class := by
      cases (h.getClass c).superclass <;> rfl
    rw [hsuper]
    grind
  refine ⟨_,hp.leave rfl rfl rfl ?_ ?_
    (hp.explored_taken.visit (fun x => x = .class c ∨ x ∈ methods) added (.inl rfl) hawaiting ?_ ?_)⟩
  · simp [methods]
  · simp [methods]
  · rintro y ((rfl | hy) | hy)
    · exact hc
    · exact hmethod hy
    · rcases List.mem_append.mp hy with hy | hy
      · obtain ⟨f,hf,rfl⟩ := List.mem_map.mp hy
        exact (hmethod (List.mem_map_of_mem hf)).step List.mem_cons_self
      · exact hc.step (List.mem_append_right _ hy)
  · rintro y (rfl | hy) z hz
    · rcases List.mem_append.mp hz with hz | hz
      · exact .inr (.inl (.inr hz))
      · exact .inr (.inr ((hawaiting z).mpr (.inl (List.mem_append_right _ hz))))
    · obtain ⟨f,hf,rfl⟩ := List.mem_map.mp hy
      obtain rfl := List.mem_singleton.mp hz
      exact .inr (.inr ((hawaiting _).mpr (.inl (List.mem_append_left _ (List.mem_map_of_mem hf)))))

theorem visitInstance {i : InstanceId} (hp : Partway h roots s done [.instance i]) :
    ∃ done', Partway h roots (s.visitValue (.instance i)) done' [] := by
  have hawaiting (y : Node) : y ∈ (s.visitValue (.instance i)).awaiting ↔
      y ∈ (s.heap.getInstance i).fields.values.filterMap Value.node? ++ [.class (h.getInstance i).ofClass] ∨
        y ∈ s.awaiting := by
    simp only [awaiting,visitValue,← hp.ofClass,List.filterMap_cons,Value.node?,List.filterMap_append,
      List.mem_append,List.mem_cons,List.not_mem_nil,or_false]
    grind
  have hexplored : h.Explored roots (fun x => done x ∨ x = .instance i)
      (s.visitValue (.instance i)).awaiting := by
    by_cases hdone : done (.instance i)
    · refine hp.explored_taken.visit_again hdone ?_ hawaiting
      rw [hp.stripped i hdone]
      exact List.subset_append_right _ _
    · refine hp.explored_taken.visit_new ?_
      rwa [hp.unstripped i hdone] at hawaiting
  have hscope (j : ScopeId) : (done (.scope j) ∨ Node.scope j = .instance i) ↔ done (.scope j) := by simp
  have hinstance (j : InstanceId) : (s.visitValue (.instance i)).heap.getInstance j = _ :=
    Heap.getInstance_clearFields s.heap i j
  refine ⟨_,⟨hp.functions,hp.classes,fun j => ?_,fun j hj => ?_,fun j hj => ?_,fun j hj => ?_,fun j hj => ?_,
    fun j => ?_,fun j => ?_,hp.once,hexplored⟩⟩
  · rw [hinstance,← hp.ofClass]
    split <;> rfl
  · exact hp.emptied j ((hscope j).mp hj)
  · exact hp.untouched j fun hd => hj (.inl hd)
  · rw [hinstance]
    split
    · rfl
    next hne => exact hp.stripped j (hj.resolve_right fun heq => hne (by simpa using heq.symm))
  · rw [hinstance,if_neg fun heq => hj (.inr (congrArg Node.instance heq.symm))]
    exact hp.unstripped j fun hd => hj (.inl hd)
  · rw [hscope]
    exact hp.seen j
  · rw [hscope]
    exact hp.cleared j

theorem visitValue {v : Value} (hp : Partway h roots s done v.node?.toList) :
    ∃ done', Partway h roots (s.visitValue v) done' [] := by
  cases v with
  | function f => exact hp.visitFunction
  | «class» c => exact hp.visitClass
  | «instance» i => exact hp.visitInstance
  | _ => exact ⟨done,hp⟩

theorem visitScope {i : ScopeId} (hp : Partway h roots s done [.scope i]) :
    ∃ done', Partway h roots (s.visitScope i) done' [] := by
  refine ⟨fun x => done x ∨ x = .scope i,?_⟩
  rw [Sweep.visitScope]
  split
  next hseen =>
    have hdone := (hp.seen i).mp hseen
    refine hp.leave rfl rfl rfl (fun j hj => ?_) (by simp) (hp.explored_taken.visit_again hdone (List.nil_subset _) ?_)
    · cases hj
      exact hdone
    · simp
  next hseen =>
    have hdone : ¬done (.scope i) := fun hd => hseen ((hp.seen i).mpr hd)
    have hscope (j : ScopeId) : (s.heap.clearScope i).getScope j = _ := Heap.getScope_clearScope s.heap i j
    refine ⟨hp.functions,hp.classes,hp.ofClass,fun j hj => ?_,fun j hj => ?_,fun j hj => ?_,fun j hj => ?_,
      fun j => ?_,fun j => ?_,?_,hp.explored_taken.visit_new fun y => ?_⟩
    · rw [hscope]
      split
      · rfl
      next hne => exact hp.emptied j (hj.resolve_right fun heq => hne (by simpa using heq.symm))
    · rw [hscope,if_neg fun heq => hj (.inr (congrArg Node.scope heq.symm))]
      exact hp.untouched j fun hd => hj (.inl hd)
    · exact hp.stripped j (hj.resolve_right (by simp))
    · exact hp.unstripped j fun hd => hj (.inl hd)
    · rw [Std.HashSet.contains_insert,Bool.or_eq_true,hp.seen j,beq_iff_eq,or_comm,Node.scope.injEq]
      obtain ⟨i⟩ := i
      obtain ⟨j⟩ := j
      simp [eq_comm]
    · rw [List.mem_cons,hp.cleared j,or_comm,Node.scope.injEq]
    · exact List.nodup_cons.mpr ⟨fun hmem => hdone ((hp.cleared i).mp hmem),hp.once⟩
    · simp only [awaiting,Heap.successors,hp.untouched i hdone,List.filterMap_append,List.map_append,
        List.mem_append]
      grind

theorem step (hp : Partway h roots s done []) : ∃ done', Partway h roots s.step done' [] := by
  obtain ⟨heap,values,pending,seen,cleared⟩ := s
  -- What is taken from a stack is still awaited.
  cases values with
  | cons v values =>
    have htaken : Partway h roots ⟨heap,values,pending,seen,cleared⟩ done v.node?.toList := by
      refine { hp with explored := ?_ }
      have he := hp.explored
      simp only [awaiting,List.filterMap_cons] at he ⊢
      cases hv : v.node? with
      | none => simpa [hv] using he
      | some x => simpa [hv] using he
    exact htaken.visitValue
  | nil =>
    cases pending with
    | nil => exact ⟨done,hp⟩
    | cons i pending =>
      have htaken : Partway h roots ⟨heap,[],pending,seen,cleared⟩ done [.scope i] := { hp with explored := hp.explored }
      exact htaken.visitScope

/-- References are only taken away. -/
theorem successors_subset (hp : Partway h roots s done taken) (x : Node) :
    s.heap.successors x ⊆ h.successors x := by
  cases x with
  | scope i =>
    by_cases hi : done (.scope i)
    · simp only [Heap.successors,hp.emptied i hi]
      exact List.nil_subset _
    · simp only [Heap.successors,hp.untouched i hi]
      exact List.Subset.refl _
  | function f =>
    simp only [Heap.successors,hp.getFunction]
    exact List.Subset.refl _
  | «class» c =>
    simp only [Heap.successors,hp.getClass]
    exact List.Subset.refl _
  | «instance» i =>
    by_cases hi : done (.instance i)
    · simp only [Heap.successors,hp.stripped i hi,hp.ofClass]
      exact List.subset_append_right _ _
    · simp only [Heap.successors,hp.unstripped i hi,hp.ofClass]
      exact List.Subset.refl _

theorem run (hp : Partway h roots s done []) (n : Nat) : ∃ done', Partway h roots (s.run n) done' [] := by
  induction n generalizing s done with
  | zero => exact ⟨done,hp⟩
  | succ n ih =>
    rw [Sweep.run]
    split
    · exact ⟨done,hp⟩
    · obtain ⟨done',hp'⟩ := hp.step
      exact ih hp'

end Sweep.Partway

/-! ### The number of steps -/

@[simp] theorem total_nil {α : Type} (f : α → Nat) : total f [] = 0 := rfl

@[simp] theorem total_cons {α : Type} (f : α → Nat) (a : α) (l : List α) : total f (a :: l) = f a + total f l :=
  rfl

theorem total_append {α : Type} (f : α → Nat) (l l' : List α) : total f (l ++ l') = total f l + total f l' := by
  induction l with
  | nil => simp
  | cons a l ih => simp only [List.cons_append,total_cons,ih,Nat.add_assoc]

/-- The sum falls by what one entry is worth when that becomes worthless. -/
theorem total_modify {α : Type} [Inhabited α] {f : α → α} {g : α → Nat} (hdefault : g default = 0)
    (hf : ∀ a, g (f a) = 0) (l : List α) (i : Nat) :
    total g (l.modify i f) + g (l[i]?.getD default) = total g l := by
  induction l generalizing i with
  | nil => simp [hdefault]
  | cons a l ih =>
    cases i with
    | zero => simp [hf,Nat.add_comm]
    | succ i =>
      have hl := ih i
      simp only [List.modify_succ_cons,total_cons,List.getElem?_cons_succ]
      omega

namespace Heap

variable {h' : Heap}

/-- Beyond the number of a class, more fuel makes no difference. -/
theorem Ordered.classSteps (ho : h.Ordered) {n m : Nat} {c : ClassId} (hn : c.index < n) (hm : c.index < m) :
    h.classSteps n c = h.classSteps m c := by
  induction n generalizing m c with
  | zero => omega
  | succ n ih =>
    obtain ⟨m,rfl⟩ := Nat.exists_eq_succ_of_ne_zero (Nat.ne_zero_of_lt hm)
    simp only [Heap.classSteps]
    cases hsuper : (h.getClass c).superclass with
    | none => rfl
    | some p =>
      have hp := ho c p hsuper
      have hparent : h.classSteps n p = h.classSteps m p := ih (by omega) (by omega)
      simp only [Option.toList_some,total_cons,total_nil,hparent]

theorem classSteps_congr (hclasses : h'.classes = h.classes) (n : Nat) (c : ClassId) :
    h'.classSteps n c = h.classSteps n c := by
  induction n generalizing c with
  | zero => rfl
  | succ n ih =>
    have hsteps : h'.classSteps n = h.classSteps n := funext ih
    simp only [classSteps,getClass,hclasses,hsteps]

theorem valueSteps_congr (hclasses : h'.classes = h.classes)
    (hofClass : ∀ i, (h'.getInstance i).ofClass = (h.getInstance i).ofClass) : h'.valueSteps = h.valueSteps := by
  funext v
  cases v <;> simp only [valueSteps,classSteps_congr hclasses,hclasses,hofClass]

theorem valueSteps_clearScope (h : Heap) (i : ScopeId) : (h.clearScope i).valueSteps = h.valueSteps :=
  valueSteps_congr rfl fun _ => rfl

theorem valueSteps_clearFields (h : Heap) (i : InstanceId) : (h.clearFields i).valueSteps = h.valueSteps := by
  refine valueSteps_congr rfl fun j => ?_
  rw [getInstance_clearFields]
  split <;> rfl

/-- A class takes one step, and those of its methods and of its superclass. -/
theorem Ordered.valueSteps_class (ho : h.Ordered) (c : ClassId) : h.valueSteps (.class c) =
    1 + (h.getClass c).methods.values.length +
      total h.valueSteps ((h.getClass c).superclass.toList.map Value.class) := by
  simp only [valueSteps,Heap.classSteps]
  cases hsuper : (h.getClass c).superclass with
  | none => rfl
  | some p =>
    have hp := ho c p hsuper
    have hc : c.index < h.classes.size := by
      rcases Nat.lt_or_ge c.index h.classes.size with hlt | hge
      · exact hlt
      · simp [getClass,Array.getElem?_eq_none hge,default] at hsuper
    have henough : h.classSteps h.classes.size p = h.classSteps (h.classes.size + 1) p :=
      ho.classSteps (Nat.lt_trans hp hc) (by omega)
    simp only [Option.toList_some,List.map_cons,List.map_nil,total_cons,total_nil,valueSteps,henough]

theorem steps_clearScope (h : Heap) (i : ScopeId) : (h.clearScope i).steps +
    (h.bindingsSteps (h.getScope i).bindings + (h.getScope i).enclosing.toList.length) = h.steps := by
  have hsum := total_modify (f := fun _ => ⟨∅,none⟩)
    (g := fun s : Scope => h.bindingsSteps s.bindings + s.enclosing.toList.length) rfl (fun _ => rfl)
    h.scopes.toList i.index
  simp only [steps,bindingsSteps,valueSteps_clearScope] at hsum ⊢
  simp only [clearScope,getScope,Array.toList_modify,Array.getElem?_toList] at hsum ⊢
  omega

theorem steps_clearFields (h : Heap) (i : InstanceId) :
    (h.clearFields i).steps + h.bindingsSteps (h.getInstance i).fields = h.steps := by
  have hsum := total_modify (f := fun o : Instance => { o with fields := ∅ })
    (g := fun o : Instance => h.bindingsSteps o.fields) rfl (fun _ => rfl) h.instances.toList i.index
  simp only [steps,bindingsSteps,valueSteps_clearFields] at hsum ⊢
  simp only [clearFields,getInstance,Array.toList_modify,Array.getElem?_toList] at hsum ⊢
  omega

end Heap

namespace Sweep

/-- The steps that a traversal still takes. -/
def remaining (s : Sweep) : Nat := total s.heap.valueSteps s.values + s.pending.length + s.heap.steps

/-- A value is exchanged for what it leads to, in one step. -/
theorem remaining_visitValue (ho : s.heap.Ordered) (v : Value) :
    (s.visitValue v).remaining + 1 = s.remaining + s.heap.valueSteps v := by
  cases v with
  | function f =>
    simp only [remaining,visitValue,Heap.valueSteps,List.length_cons]
    omega
  | «class» c =>
    rw [ho.valueSteps_class]
    simp only [remaining,visitValue,total_append,List.length_append,List.length_map]
    omega
  | «instance» i =>
    have hclass : s.heap.valueSteps (.instance i) =
        1 + s.heap.valueSteps (.class (s.heap.getInstance i).ofClass) := rfl
    have hfields := s.heap.steps_clearFields i
    rw [hclass]
    simp only [remaining,visitValue,Heap.valueSteps_clearFields,total_cons,total_append]
    simp only [Heap.bindingsSteps] at hfields
    omega
  | _ =>
    simp only [remaining,visitValue,Heap.valueSteps]

theorem remaining_visitScope (s : Sweep) (i : ScopeId) : (s.visitScope i).remaining = s.remaining := by
  rw [visitScope]
  split
  · rfl
  · have hscope := s.heap.steps_clearScope i
    simp only [remaining,Heap.valueSteps_clearScope,total_append,List.length_append]
    simp only [Heap.bindingsSteps] at hscope
    omega

theorem remaining_step (ho : s.heap.Ordered) (h : s.finished = false) : s.step.remaining + 1 = s.remaining := by
  obtain ⟨heap,values,pending,seen,cleared⟩ := s
  cases values with
  | cons v values =>
    have hvisit := remaining_visitValue (s := ⟨heap,values,pending,seen,cleared⟩) ho v
    simp only [step,hvisit]
    simp only [remaining,total_cons]
    omega
  | nil =>
    cases pending with
    | nil => simp [finished] at h
    | cons i pending =>
      simp only [step,remaining_visitScope]
      simp only [remaining,List.length_cons]
      omega

theorem Partway.finishes (hp : Partway h roots s done []) (ho : h.Ordered) {n : Nat} (hn : s.remaining ≤ n) :
    (s.run n).finished = true := by
  have hs : s.heap.Ordered := by
    simpa only [Heap.Ordered,hp.getClass] using ho
  induction n generalizing s done with
  | zero =>
    cases hfinished : s.finished with
    | true => exact hfinished
    | false =>
      have hstep := remaining_step hs hfinished
      omega
  | succ n ih =>
    rw [Sweep.run]
    split
    next hfinished => exact hfinished
    next hunfinished =>
      have hstep := remaining_step hs (by simpa using hunfinished)
      obtain ⟨done',hp'⟩ := hp.step
      exact ih hp' (by omega) (by simpa only [Heap.Ordered,hp'.getClass] using ho)

theorem awaiting_of_finished (h : s.finished = true) : s.awaiting = [] := by
  rw [finished,Bool.and_eq_true,List.isEmpty_iff,List.isEmpty_iff] at h
  rw [awaiting,h.1,h.2]
  rfl

end Sweep

/-! ### The end -/

/-- What a traversal has done when it has come to its end. -/
structure Heap.Swept (h : Heap) (roots : List ScopeId) (s : Sweep) : Prop where
  finished : s.finished = true
  once : s.cleared.Nodup
  cleared : ∀ i, i ∈ s.cleared ↔ h.Reaches roots (.scope i)
  classes : s.heap.classes = h.classes
  emptied : ∀ i, h.Reaches roots (.scope i) → s.heap.getScope i = ⟨∅,none⟩
  ofClass : ∀ i, (s.heap.getInstance i).ofClass = (h.getInstance i).ofClass
  stripped : ∀ i, h.Reaches roots (.instance i) → (s.heap.getInstance i).fields = ∅
  subset : ∀ x, s.heap.successors x ⊆ h.successors x

namespace Heap

/-- In a heap whose classes are ordered, the traversal comes to an end, however its objects refer to each
other. -/
theorem swept_spec (ho : h.Ordered) (roots : List ScopeId) : h.Swept roots (h.swept roots) := by
  have hstart := Sweep.Partway.start h roots
  have hremaining : (Sweep.start h roots).remaining ≤ roots.length + h.steps := by
    simp [Sweep.start,Sweep.remaining]
  have hfinished : (h.swept roots).finished = true := hstart.finishes ho hremaining
  obtain ⟨done,hp⟩ : ∃ done, Sweep.Partway h roots (h.swept roots) done [] := hstart.run _
  have hdone (x : Node) : done x ↔ h.Reaches roots x := by
    have he := hp.explored
    rw [List.nil_append,Sweep.awaiting_of_finished hfinished] at he
    exact he.done_iff x
  exact ⟨hfinished,hp.once,fun i => (hp.cleared i).trans (hdone _),hp.classes,
    fun i hi => hp.emptied i ((hdone _).mpr hi),hp.ofClass,fun i hi => hp.stripped i ((hdone _).mpr hi),
    hp.successors_subset⟩

/-- What objects come down to when scopes and instances hold nothing: an instance to its class, a class to
its superclass and its methods, and a function to its closure. -/
def rank (h : Heap) : Node → Nat
  | .scope _ => 0
  | .function _ => 1
  | .class c => c.index + 2
  | .instance i => (h.getInstance i).ofClass.index + 3

namespace Swept

theorem rank_lt (hs : h.Swept roots s) (ho : h.Ordered) {x y : Node} (hx : h.Reaches roots x)
    (hy : y ∈ s.heap.successors x) : h.rank y < h.rank x := by
  cases x with
  | scope i =>
    simp only [successors,hs.emptied i hx] at hy
    exact absurd hy List.not_mem_nil
  | function f =>
    obtain rfl := List.mem_singleton.mp hy
    exact Nat.one_pos
  | «class» c =>
    have hclass : s.heap.getClass c = h.getClass c := by simp only [getClass,hs.classes]
    simp only [successors,hclass] at hy
    rcases List.mem_append.mp hy with hy | hy
    · obtain ⟨f,-,rfl⟩ := List.mem_map.mp hy
      simp only [rank]
      omega
    · obtain ⟨p,hp,rfl⟩ := List.mem_map.mp hy
      exact Nat.add_lt_add_right (ho c p (Option.mem_toList.mp hp)) 2
  | «instance» i =>
    simp only [successors,hs.stripped i hx,hs.ofClass] at hy
    obtain rfl := List.mem_singleton.mp hy
    exact Nat.lt_succ_self _

/-- Among the objects that have been visited no reference goes round in a circle. -/
theorem acyclic (hs : h.Swept roots s) (ho : h.Ordered) {x : Node} (hx : h.Reaches roots x) :
    ¬Relation.TransGen (fun a b => b ∈ s.heap.successors a) x x := by
  have hlower {y : Node} (hy : Relation.TransGen (fun a b => b ∈ s.heap.successors a) x y) :
      h.Reaches roots y ∧ h.rank y < h.rank x := by
    induction hy with
    | single hy => exact ⟨hx.step (hs.subset _ hy),hs.rank_lt ho hx hy⟩
    | tail _ hy ih => exact ⟨ih.1.step (hs.subset _ hy),Nat.lt_trans (hs.rank_lt ho ih.1 hy) ih.2⟩
  exact fun hcircle => Nat.lt_irrefl _ (hlower hcircle).2

end Swept

end Heap
end Lox

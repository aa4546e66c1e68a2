import Lox.Proofs.Heap.Founded
import Lox.Proofs.Session.Whole
import Mathlib

/-! The heap in the course of a session. The links outward and upward of a new object lead to objects that are there,
and no link of an old one is ever changed, so that all these links come to an end. Nothing that a heap has is taken from
it. -/
namespace Lox

/-- The heap at one moment and at the next: from the start of some work to the start of a part of it, from the end of
a part to the end of the work, and from the start of the work to its end. Where a part ends, the next one starts with
the same heap. -/
inductive Heap.Next (runs : List Run) : Heap → Heap → Prop
  | part {r w m w' m'} (hr : r ∈ runs) (hv : Visits r w m) (hs : Starts w m w' m') : Next runs m.heap m'.heap
  | behind {r w m w' m'} (hr : r ∈ runs) (hv : Visits r w m) (hs : Starts w m w' m') :
    Next runs (w'.after m').heap (w.after m).heap
  | whole {r w m} (hr : r ∈ runs) (hv : Visits r w m) : Next runs m.heap (w.after m).heap

/-- One moment after another. -/
abbrev Heap.Later (runs : List Run) : Heap → Heap → Prop := Relation.ReflTransGen (Heap.Next runs)

/-- The heap before the first program. -/
def Heap.first : Heap := Heap.initial.define Heap.globals Native.clock.name (.native .clock)

/-- The machines of a session: those on which the work of its runs has started and ended, and the present one. -/
inductive Session.Passes (runs : List Run) (s : Session) : Machine → Prop
  | start {r w m} (hr : r ∈ runs) (hv : Visits r w m) : Passes runs s m
  | finish {r w m} (hr : r ∈ runs) (hv : Visits r w m) : Passes runs s (w.after m)
  | present : Passes runs s s.machine

variable {runs later : List Run} {programs : List (List Stmt)} {s : Session} {r : Run} {w : Work} {h h' h₁ h₂ : Heap}
  {m : Machine}

/-! ### Elementary changes -/

namespace Heap.Founded

/-- What is old has stayed as it was, so that only what is new has to be looked at. -/
theorem kept (hh : h.Founded) (hkept : h.Kept h')
    (hscope : ∀ i, h.scopes.size ≤ i.index → i.index < h'.scopes.size →
      ∃ k, (h'.getScope i).enclosing = some k ∧ k.index < i.index)
    (hfunction : ∀ f, h.functions.size ≤ f.index → f.index < h'.functions.size →
      (h'.getFunction f).closure.index < h'.scopes.size)
    (hclass : ∀ c p, h.classes.size ≤ c.index → (h'.getClass c).superclass = some p → p.index < c.index)
    (hinstance : ∀ i, h.instances.size ≤ i.index → i.index < h'.instances.size →
      (h'.getInstance i).ofClass.index < h'.classes.size) : h'.Founded where
  root := Nat.lt_of_lt_of_le hh.root hkept.scopes
  outermost := (hkept.enclosing globals hh.root).trans hh.outermost
  enclosing i hi hne := by
    by_cases hold : i.index < h.scopes.size
    · rw [hkept.enclosing i hold]
      exact hh.enclosing i hold hne
    · exact hscope i (Nat.le_of_not_lt hold) hi
  closure f hf := by
    by_cases hold : f.index < h.functions.size
    · rw [hkept.function f hold]
      exact Nat.lt_of_lt_of_le (hh.closure f hold) hkept.scopes
    · exact hfunction f (Nat.le_of_not_lt hold) hf
  superclass c p hp := by
    by_cases hold : c.index < h.classes.size
    · exact hh.superclass c p (hkept.getClass c hold ▸ hp)
    · exact hclass c p (Nat.le_of_not_lt hold) hp
  ofClass i hi := by
    by_cases hold : i.index < h.instances.size
    · rw [hkept.ofClass i hold]
      exact Nat.lt_of_lt_of_le (hh.ofClass i hold) hkept.classes
    · exact hinstance i (Nat.le_of_not_lt hold) hi

theorem initial : Heap.initial.Founded where
  root := Nat.zero_lt_one
  outermost := rfl
  enclosing i hi hne := by
    obtain ⟨i⟩ := i
    obtain rfl := Nat.lt_one_iff.mp hi
    exact absurd rfl hne
  closure _ hf := absurd hf (Nat.not_lt_zero _)
  superclass c p hp := by simp [Heap.getClass,Heap.initial,default] at hp
  ofClass _ hi := absurd hi (Nat.not_lt_zero _)

/-- Where a table has grown by no entry, none is new. -/
theorem none_new {n k : Nat} {p : Prop} (hold : n ≤ k) (hnew : k < n) : p := absurd hnew (Nat.not_lt_of_le hold)

variable (hh : h.Founded)
include hh

theorem define (i : ScopeId) (name : String) (v : Value) : (h.define i name v).Founded := by
  refine hh.kept (.of_grows (.define h i name v) rfl rfl) (fun j hold hj => ?_) (fun _ => none_new)
    (fun c p _ hp => hh.superclass c p hp) fun _ => none_new
  rw [define_size] at hj
  exact none_new hold hj

theorem addScope {k : ScopeId} (b : Bindings Value) (hk : k.index < h.scopes.size) :
    (h.addScope ⟨b,some k⟩).2.Founded := by
  refine hh.kept (.of_grows (.addScope h _) rfl rfl) (fun j hold hj => ?_) (fun _ => none_new)
    (fun c p _ hp => hh.superclass c p hp) fun _ => none_new
  have hnew : j.index = h.scopes.size := Nat.eq_of_le_of_lt_succ hold (by simpa [Heap.addScope] using hj)
  rw [getScope_addScope,if_pos hnew,hnew]
  exact ⟨k,rfl,hk⟩

theorem addFunction {f : Function} (hf : f.closure.index < h.scopes.size) : (h.addFunction f).2.Founded := by
  refine hh.kept (.of_grows (.addFunction h f) rfl rfl) (fun _ => none_new) (fun g hold hg => ?_)
    (fun c p _ hp => hh.superclass c p hp) fun _ => none_new
  have hnew : g.index = h.functions.size := Nat.eq_of_le_of_lt_succ hold (by simpa [Heap.addFunction] using hg)
  rw [getFunction_addFunction,if_pos hnew]
  exact hf

theorem addClass {k : Class} (hk : ∀ p, k.superclass = some p → p.index < h.classes.size) :
    (h.addClass k).2.Founded := by
  refine hh.kept (.addClass h k) (fun _ => none_new) (fun _ => none_new) (fun c p hold hp => ?_) fun _ => none_new
  rw [getClass_addClass] at hp
  split at hp
  next => exact Nat.lt_of_lt_of_le (hk p hp) hold
  next => exact hh.superclass c p hp

theorem addInstance {c : ClassId} (hc : c.index < h.classes.size) : (h.addInstance ⟨c,∅⟩).2.Founded := by
  refine hh.kept (.addInstance h _) (fun _ => none_new) (fun _ => none_new) (fun c p _ hp => hh.superclass c p hp)
    fun o hold ho => ?_
  have hnew : o.index = h.instances.size := Nat.eq_of_le_of_lt_succ hold (by simpa [Heap.addInstance] using ho)
  rw [getInstance_addInstance,if_pos hnew]
  exact hc

theorem setField (i : InstanceId) (name : String) (v : Value) : (h.setField i name v).Founded := by
  refine hh.kept (.setField h i name v) (fun _ => none_new) (fun _ => none_new)
    (fun c p _ hp => hh.superclass c p hp) fun o hold ho => ?_
  simp only [Heap.setField,Array.size_modify] at ho
  exact none_new hold ho

end Heap.Founded

/-! ### What a run does -/

/-- Where nothing dangles, what may be referred to is there. -/
theorem Run.Offers.inRange {k : ScopeId} (hk : r.Offers h k) (hr : r.machine.Whole) (hh : h.Founded) :
    k.index < h.scopes.size := by
  cases hk with
  | globals => exact hh.root
  | there hk => exact hk
  | current hvisits hsize => exact Nat.lt_of_lt_of_le (hvisits.whole hr).2.exists_scope hsize
  | closure hf => exact hh.closure _ hf

/-- Each change is made to a founded heap and leaves one. -/
theorem Heap.Evolves.founded (a : h.Evolves r h') (hr : r.machine.Whole) (hh : h.Founded) : h'.Founded := by
  induction a with
  | refl => exact hh
  | define _ i name v ih => exact ih.define i name v
  | addScope _ b hk ih => exact ih.addScope b (hk.inRange hr ih)
  | addFunction _ hf ih => exact ih.addFunction (hf.inRange hr ih)
  | addClass _ hvisits hsize _ ih => exact ih.addClass fun p hp => hsize ▸ (hvisits.whole hr).1 p hp
  | addInstance _ hvisits hsize ih => exact ih.addInstance (Nat.lt_of_lt_of_le (hvisits.whole hr).1.1 hsize)
  | setField _ i name v ih => exact ih.setField i name v

theorem Heap.Next.evolves (hnext : Heap.Next runs h₁ h₂) : ∃ r ∈ runs, h₁.Evolves r h₂ := by
  cases hnext with
  | part hr hv hs => exact ⟨_,hr,hs.evolves hv⟩
  | behind hr hv hs => exact ⟨_,hr,hs.evolves_behind hv⟩
  | whole hr hv => exact ⟨_,hr,hv.evolves⟩

theorem Heap.Next.mono (hruns : runs ⊆ later) (hnext : Heap.Next runs h₁ h₂) : Heap.Next later h₁ h₂ := by
  cases hnext with
  | part hr hv hs => exact .part (hruns hr) hv hs
  | behind hr hv hs => exact .behind (hruns hr) hv hs
  | whole hr hv => exact .whole (hruns hr) hv

theorem Heap.Later.mono (hruns : runs ⊆ later) (hlater : Heap.Later runs h₁ h₂) : Heap.Later later h₁ h₂ :=
  Relation.ReflTransGen.mono (fun _ _ hnext => Heap.Next.mono hruns hnext) _ _ hlater

namespace Visits

theorem later_start (hv : Visits r w m) (hr : r ∈ runs) : Heap.Later runs r.machine.heap m.heap := by
  induction hv with
  | start => exact .refl
  | step hv hs ih => exact ih.tail (.part hr hv hs)

theorem later_left (hv : Visits r w m) (hr : r ∈ runs) : Heap.Later runs (w.after m).heap r.left.heap := by
  induction hv with
  | start => exact .refl
  | step hv hs ih => exact ih.head (.behind hr hv hs)

end Visits

/-! ### Sessions -/

/-- The runs of a session lie between the first heap and the present one. -/
structure Session.Spans (runs : List Run) (s : Session) : Prop where
  present : Heap.Later runs Heap.first s.machine.heap
  started : ∀ r ∈ runs, Heap.Later runs Heap.first r.machine.heap
  left : ∀ r ∈ runs, Heap.Later runs r.left.heap s.machine.heap

namespace Session.Spans

variable {s' : Session}

theorem of_heap (hs : s.Spans runs) (hheap : s'.machine.heap = s.machine.heap) : s'.Spans runs :=
  ⟨hheap ▸ hs.present,hs.started,hheap ▸ hs.left⟩

theorem execute (hs : s.Spans runs) (budget : Nat) (program : List Stmt) :
    (s.execute budget program).2.Spans (s.starts budget program ++ runs) := by
  rw [Session.execute_machine,Session.starts]
  by_cases hempty : (s.machine.resolve program).1.isEmpty
  · rw [if_pos hempty,if_pos hempty]
    let r : Run := ⟨budget,program,(s.machine.resolve program).2.note (.interpreting program.length)⟩
    have hleft : ((s.machine.resolve program).2.interpret budget program).2.heap = r.left.heap :=
      Machine.interpret_heap _ budget program
    have hmono {h₁ h₂ : Heap} : Heap.Later runs h₁ h₂ → Heap.Later ([r] ++ runs) h₁ h₂ :=
      .mono (List.subset_append_right [r] runs)
    have hrun : Heap.Later ([r] ++ runs) s.machine.heap r.left.heap := .single (.whole List.mem_cons_self .start)
    refine ⟨hleft ▸ (hmono hs.present).trans hrun,fun q hq => ?_,fun q hq => hleft ▸ ?_⟩
    · rcases List.mem_cons.mp hq with rfl | hq
      · exact hmono hs.present
      · exact hmono (hs.started q hq)
    · rcases List.mem_cons.mp hq with rfl | hq
      · exact .refl
      · exact (hmono (hs.left q hq)).trans hrun
  · rw [if_neg hempty,if_neg hempty]
    exact hs.of_heap rfl

end Session.Spans

namespace Reached

theorem spans (hs : Reached runs programs s) : s.Spans runs := by
  -- To read a source leaves the heap as it is, so that only executions count.
  induction hs with
  | new => exact ⟨.refl,by simp,by simp⟩
  | parsed _ hs ih => exact ih.of_heap (Session.parse_parses hs).heap
  | rejected _ hs ih => exact ih.of_heap (Session.parse_parses hs).heap
  | executed budget _ _ ih => exact ih.execute budget _
  | @run _ _ s source _ _ budget _ hs ih =>
    rw [Session.run_ok hs]
    exact (ih.of_heap ((s.announce_parses source).trans (Session.parse_parses hs)).heap).execute budget _
  | @run_rejected _ _ s source _ _ budget _ hs ih =>
    rw [Session.run_error hs]
    exact ih.of_heap ((s.announce_parses source).trans (Session.parse_parses hs)).heap

variable (hs : Reached runs programs s)
include hs

theorem passes_between (hm : s.Passes runs m) :
    Heap.Later runs Heap.first m.heap ∧ Heap.Later runs m.heap s.machine.heap := by
  cases hm with
  | @start r w m hr hv =>
    have hend : Heap.Later runs (w.after m).heap s.machine.heap := (hv.later_left hr).trans (hs.spans.left r hr)
    exact ⟨(hs.spans.started r hr).trans (hv.later_start hr),.head (.whole hr hv) hend⟩
  | @finish r w m hr hv =>
    have hstart : Heap.Later runs Heap.first m.heap := (hs.spans.started r hr).trans (hv.later_start hr)
    exact ⟨hstart.tail (.whole hr hv),(hv.later_left hr).trans (hs.spans.left r hr)⟩
  | present => exact ⟨hs.spans.present,.refl⟩

theorem later_founded (hlater : Heap.Later runs h₁ h₂) (hh : h₁.Founded) : h₂.Founded := by
  induction hlater with
  | refl => exact hh
  | tail _ hnext ih =>
    obtain ⟨r,hr,hevolves⟩ := hnext.evolves
    exact hevolves.founded (hs.starts_whole r hr) ih

/-- However work ends, it is back in the scope that it has started in. -/
theorem passes_scope (hm : s.Passes runs m) : m.scope.index < m.heap.scopes.size := by
  cases hm with
  | start hr hv => exact (hs.visits_whole hr hv).2.exists_scope
  | @finish r w m hr hv =>
    have hresumes := w.resumes m
    exact hresumes.scope ▸ Nat.lt_of_lt_of_le (hs.visits_whole hr hv).2.exists_scope hresumes.heap.scopes
  | present => exact hs.whole.exists_scope

end Reached

/-- Whoever follows the scopes outward comes to the global one at last, from the current scope and from those that
functions close over as well. Whoever follows the superclasses comes to a class that has none. What is sought on the
way is found in the first place that has it, and otherwise the search fails at the end of the way. -/
structure Machine.Grounded (m : Machine) : Prop where
  current : m.scope.index < m.heap.scopes.size
  closure : ∀ f, f.index < m.heap.functions.size → (m.heap.getFunction f).closure.index < m.heap.scopes.size
  scope : ∀ i, i.index < m.heap.scopes.size →
    ∃ chain, m.heap.ScopeChain i chain ∧ chain.getLast? = some Heap.globals ∧ m.heap.SoughtAlong i chain
  ofClass : ∀ i, i.index < m.heap.instances.size → (m.heap.getInstance i).ofClass.index < m.heap.classes.size
  «class» : ∀ c, c.index < m.heap.classes.size → ∃ chain, m.heap.ClassChain c chain ∧
    ∀ name, m.heap.findMethod? c name = chain.findSome? fun k => (m.heap.getClass k).methods.find? name

theorem Heap.Founded.grounded (hh : m.heap.Founded) (hscope : m.scope.index < m.heap.scopes.size) : m.Grounded where
  current := hscope
  closure := hh.closure
  scope i hi := by
    obtain ⟨chain,hchain,hlast⟩ := hh.scopeChain hi
    exact ⟨chain,hchain,hlast,hchain.soughtAlong⟩
  ofClass := hh.ofClass
  «class» _ := hh.classChain

/-- At every moment of a session, all links outward and upward come to an end. From each moment to the next the heap is
changed in elementary ways only, by defining names, adding objects and setting fields, and none of them takes anything
away: scopes stay where they are and keep their names, functions and classes stay as they were made, and instances stay
of their classes and keep their fields. -/
theorem heap_only_grows (hs : Reached runs programs s) :
    (∀ m, s.Passes runs m → m.Grounded ∧ m.heap.Founded ∧
      Heap.Later runs Heap.first m.heap ∧ Heap.Later runs m.heap s.machine.heap) ∧
    (∀ h₁ h₂, Heap.Next runs h₁ h₂ → ∃ r ∈ runs, h₁.Evolves r h₂) ∧
    ∀ r ∈ runs, ∀ h₁ h₂ : Heap, h₁.Evolves r h₂ → h₁.Kept h₂ ∧ (h₁.Founded → h₂.Founded) := by
  refine ⟨fun m hm => ?moments,fun _ _ hnext => hnext.evolves,fun r hr _ _ hevolves => ?changes⟩
  case moments =>
    obtain ⟨hsince,huntil⟩ := hs.passes_between hm
    have hfirst : Heap.first.Founded := Heap.Founded.initial.define Heap.globals Native.clock.name _
    have hfounded : m.heap.Founded := hs.later_founded hsince hfirst
    exact ⟨hfounded.grounded (hs.passes_scope hm),hfounded,hsince,huntil⟩
  case changes => exact ⟨hevolves.kept,hevolves.founded (hs.starts_whole r hr)⟩

/-- The class `A` is declared again as a subclass of its own subclass, and an instance gets a method of its own as a
field. -/
theorem heap_only_grows_redeclared :
    ∃ runs programs s, Reached runs programs s ∧
      (s.machine.heap.getClass ⟨2⟩).name = (s.machine.heap.getClass ⟨0⟩).name ∧
      s.machine.heap.ClassChain ⟨2⟩ [⟨2⟩,⟨1⟩,⟨0⟩] ∧ s.machine.heap.findMethod? ⟨2⟩ "m" = some ⟨0⟩ ∧
      Relation.TransGen (fun x y => y ∈ s.machine.heap.successors x) (.instance ⟨0⟩) (.instance ⟨0⟩) ∧
      s.machine.Grounded ∧ ∃ r ∈ runs, r.machine.heap.Kept r.left.heap := by
  let a : Token := ⟨.identifier,"A",1⟩
  let b : Token := ⟨.identifier,"B",1⟩
  let x : Token := ⟨.identifier,"a",1⟩
  let f : Token := ⟨.identifier,"f",1⟩
  let method : Token := ⟨.identifier,"m",1⟩
  let left : Token := ⟨.leftBrace,"\x7b",1⟩
  let right : Token := ⟨.rightBrace,"\x7d",1⟩
  let paren : Token := ⟨.rightParen,")",1⟩
  let source := "class A \x7b m() \x7b \x7d \x7d class B < A \x7b \x7d class A < B \x7b \x7d var a = A(); a.f = a.m;"
  let program : List Stmt := [.class a none [⟨method,[],[]⟩],.class b (some (.variable (.numbered 0) a)) [],
    .class a (some (.variable (.numbered 1) b)) [],.var x (some (.call (.variable (.numbered 2) a) paren [])),
    .expression (.set (.variable (.numbered 3) x) f (.get (.variable (.numbered 4) x) method))]
  have htokens : (scan source).tokens =
      [⟨.kwClass,"class",1⟩,a,left,method,⟨.leftParen,"(",1⟩,paren,left,right,right,
        ⟨.kwClass,"class",1⟩,b,⟨.less,"<",1⟩,a,left,right,⟨.kwClass,"class",1⟩,a,⟨.less,"<",1⟩,b,left,right,
        ⟨.kwVar,"var",1⟩,x,⟨.equal,"=",1⟩,a,⟨.leftParen,"(",1⟩,paren,⟨.semicolon,";",1⟩,
        x,⟨.dot,".",1⟩,f,⟨.equal,"=",1⟩,x,⟨.dot,".",1⟩,method,⟨.semicolon,";",1⟩,.eof 1] := by
    decide +kernel
  have herrors : (scan source).errors = [] := by decide +kernel
  have hprogram : (Reading.ofSource source ⟨0⟩).program = .ok program := by
    simp only [Reading.program,Reading.errors,Reading.ofSource,htokens,herrors]
    cbv
  let s := ((Session.new .unlimited (.startingAt 0)).read source).2
  let r : Run := ⟨9,program,(s.machine.resolve program).2.note (.interpreting 5)⟩
  have hreached : Reached (s.starts 9 program) [program] (s.execute 9 program).2 :=
    .single .unlimited (.startingAt 0) 9 hprogram
  have hruns : s.starts 9 program = [r] := if_pos (by decide +kernel)
  rw [hruns] at hreached
  let h := (s.execute 9 program).2.machine.heap
  have hchain : h.ClassChain ⟨2⟩ [⟨2⟩,⟨1⟩,⟨0⟩] :=
    .link (p := ⟨1⟩) (by decide +kernel) (by decide +kernel)
      (.link (p := ⟨0⟩) (by decide +kernel) (by decide +kernel) (.last (by decide +kernel) (by decide +kernel)))
  have hfield : Node.function ⟨1⟩ ∈ h.successors (.instance ⟨0⟩) := by decide +kernel
  have hclosure : Node.scope ⟨3⟩ ∈ h.successors (.function ⟨1⟩) := by decide +kernel
  have hthis : Node.instance ⟨0⟩ ∈ h.successors (.scope ⟨3⟩) := by decide +kernel
  have hcircle : Relation.TransGen (fun x y => y ∈ h.successors x) (.instance ⟨0⟩) (.instance ⟨0⟩) :=
    .tail (.tail (.single hfield) hclosure) hthis
  obtain ⟨hmoments,hnext,hchanges⟩ := heap_only_grows hreached
  have hgrounded := (hmoments _ .present).1
  obtain ⟨chain,hchain',hmethods⟩ := hgrounded.class ⟨2⟩ (by decide +kernel)
  obtain rfl := hchain'.unique hchain
  obtain ⟨q,hq,hevolves⟩ := hnext r.machine.heap r.left.heap (.whole List.mem_cons_self .start)
  exact ⟨_,_,_,hreached,by decide +kernel,hchain,(hmethods "m").trans (by decide +kernel),hcircle,
    hgrounded,r,List.mem_cons_self,(hchanges q hq _ _ hevolves).1⟩

end Lox

import Lox.Proofs.Run.Heap
import Lox.Proofs.Run.Visit
import Lox.Proofs.Scoping.Covered

/-! What holds of every heap that occurs in a run: the scopes around a closure are those that scoping
has seen around its declaration. -/
namespace Lox

/-- A chain of scopes that belongs to static scopes. Each has the names that are marked as defined, and
maybe more. -/
inductive Chain (runs : List Run) (h : Heap) : List Frame → ScopeId → Prop
  | nil : Chain runs h [] Heap.globals
  | cons {f frames j k} (hj : j.index < h.scopes.size) (hk : (h.getScope j).enclosing = some k)
    (hbinds : ∀ name, f.names.find? name = some true → h.Binds j name)
    (hsite : Activation runs f.site j) (houter : Chain runs h frames k) :
    Chain runs h (f :: frames) j

/-- A function that is ready to be called: its body has been scoped with the scopes that it closes
over. An initializer closes over its instance. -/
structure Closes (runs : List Run) (h : Heap) (f : Function) (r : Run) (c : Context)
    (context : FunctionContext) : Prop where
  run : r ∈ runs
  coherent : c.Coherent
  settled : c.initializing = none
  part : FunctionIn r.program c context f.declaration
  chain : Chain runs h c.frames f.closure
  receiver : f.isInitializer = true → ∃ g ∈ c.frames.head?, g.names.find? "this" = some true

/-- A method as it is kept in its class, without a receiver. -/
structure Unbound (runs : List Run) (h : Heap) (f : Function) (r : Run) (c : Context)
    (context : FunctionContext) : Prop where
  run : r ∈ runs
  coherent : (c.receiving f.declaration).Coherent
  part : FunctionIn r.program (c.receiving f.declaration) context f.declaration
  chain : Chain runs h c.frames f.closure

/-- A value of a run. If it is a function, it can be called. -/
def Valid (runs : List Run) (h : Heap) : Value → Prop
  | .function f => f.index < h.functions.size ∧ ∃ r c context, Closes runs h (h.getFunction f) r c context
  | _ => True

def IsMethod (runs : List Run) (h : Heap) (f : FunctionId) : Prop :=
  f.index < h.functions.size ∧ ∃ r c context, Unbound runs h (h.getFunction f) r c context

/-- The bindings of one scope. Programs cannot bind `this` and `super`. -/
structure Sound (runs : List Run) (h : Heap) (b : Bindings Value) : Prop where
  valid : ∀ name v, b.find? name = some v → Valid runs h v
  this : ∀ v, b.find? "this" = some v → ∃ i, v = .instance i
  super : ∀ v, b.find? "super" = some v → ∃ c, v = .class c

structure Good (runs : List Run) (h : Heap) : Prop where
  scope : ∀ j, Sound runs h (h.getScope j).bindings
  method : ∀ c name f, (h.getClass c).methods.find? name = some f → IsMethod runs h f
  field : ∀ i name v, (h.getInstance i).fields.find? name = some v → Valid runs h v

variable {runs : List Run} {h h' : Heap}

/-! ### Growth -/

theorem Chain.extends (hh : h.Extends h') {frames : List Frame} {j : ScopeId}
    (hchain : Chain runs h frames j) : Chain runs h' frames j := by
  induction hchain with
  | nil => exact .nil
  | @cons f frames j k hj hk hbinds hsite houter ih =>
    exact .cons (Nat.lt_of_lt_of_le hj hh.scopes) ((hh.enclosing j hj).trans hk)
      (fun name hname => hh.binds j name (hbinds name hname)) hsite ih

/-- A new scope that has the names of a static one. -/
theorem Chain.enter {s : Scope} {f : Frame} {frames : List Frame} {k : ScopeId}
    (hchain : Chain runs h frames k) (hk : s.enclosing = some k)
    (hbinds : ∀ name, f.names.find? name = some true → s.bindings.contains name)
    (hsite : Activation runs f.site ⟨h.scopes.size⟩) :
    Chain runs (h.addScope s).2 (f :: frames) ⟨h.scopes.size⟩ := by
  have hnew := Heap.getScope_new h s
  refine .cons (by simp [Heap.addScope]) ?_ (fun name hname => ?_) hsite
    (hchain.extends (.addScope h s))
  · exact (congrArg Scope.enclosing hnew).trans hk
  · exact (congrArg (·.bindings.contains name) hnew).trans (hbinds name hname)

/-- A name is marked in the innermost static scope and bound in the scope that belongs to it. -/
theorem Chain.define {c : Context} {j : ScopeId} (hchain : Chain runs h c.frames j)
    (hh : h.Extends h') {name : String} (hbinds : j.index < h.scopes.size → h'.Binds j name) :
    Chain runs h' (c.define name).frames j := by
  have hchain' := hchain.extends hh
  obtain ⟨frames,around,initializing⟩ := c
  cases hchain with
  | nil => exact hchain'
  | cons hj =>
    have hbound := hbinds hj
    cases hchain' with
    | cons hj hk hnames hsite houter =>
      refine .cons hj hk (fun other hother => ?_) hsite houter
      rw [Bindings.find?_insert] at hother
      split at hother
      next heq => exact heq ▸ hbound
      next => exact hnames other hother

theorem Closes.extends (hh : h.Extends h') {f : Function} {r : Run} {c : Context}
    {context : FunctionContext} (hf : Closes runs h f r c context) : Closes runs h' f r c context :=
  { hf with chain := hf.chain.extends hh }

theorem Unbound.extends (hh : h.Extends h') {f : Function} {r : Run} {c : Context}
    {context : FunctionContext} (hf : Unbound runs h f r c context) : Unbound runs h' f r c context :=
  { hf with chain := hf.chain.extends hh }

theorem Valid.extends (hh : h.Extends h') {v : Value} (hv : Valid runs h v) : Valid runs h' v := by
  cases v with
  | function f =>
    obtain ⟨hlt,r,c,context,hf⟩ := hv
    refine ⟨Nat.lt_of_lt_of_le hlt hh.functions,r,c,context,?_⟩
    rw [hh.function f hlt]
    exact hf.extends hh
  | _ => trivial

theorem IsMethod.extends (hh : h.Extends h') {f : FunctionId} (hf : IsMethod runs h f) :
    IsMethod runs h' f := by
  obtain ⟨hlt,r,c,context,hf⟩ := hf
  refine ⟨Nat.lt_of_lt_of_le hlt hh.functions,r,c,context,?_⟩
  rw [hh.function f hlt]
  exact hf.extends hh

theorem Sound.extends (hh : h.Extends h') {b : Bindings Value} (hb : Sound runs h b) :
    Sound runs h' b :=
  { hb with valid := fun name v hv => (hb.valid name v hv).extends hh }

/-! ### More runs -/

section

variable {later : List Run} (hruns : runs ⊆ later)
include hruns

theorem Chain.mono {frames : List Frame} {j : ScopeId} (hchain : Chain runs h frames j) :
    Chain later h frames j := by
  induction hchain with
  | nil => exact .nil
  | cons hj hk hbinds hsite houter ih => exact .cons hj hk hbinds (hsite.mono hruns) ih

theorem Valid.mono {v : Value} (hv : Valid runs h v) : Valid later h v := by
  cases v with
  | function f =>
    obtain ⟨hlt,r,c,context,hf⟩ := hv
    exact ⟨hlt,r,c,context,{ hf with run := hruns hf.run, chain := hf.chain.mono hruns }⟩
  | _ => trivial

theorem Good.mono (hgood : Good runs h) : Good later h where
  scope j :=
    { hgood.scope j with valid := fun name v hv => ((hgood.scope j).valid name v hv).mono hruns }
  method c name f hf := by
    obtain ⟨hlt,r,c,context,hf⟩ := hgood.method c name f hf
    exact ⟨hlt,r,c,context,{ hf with run := hruns hf.run, chain := hf.chain.mono hruns }⟩
  field i name v hv := (hgood.field i name v hv).mono hruns

end

/-! ### Elementary steps -/

theorem Sound.empty : Sound runs h ∅ := ⟨by simp,by simp,by simp⟩

theorem Sound.insert {b : Bindings Value} (hb : Sound runs h b) {name : String} {v : Value}
    (hv : Valid runs h v) (hthis : name = "this" → ∃ i, v = .instance i)
    (hsuper : name = "super" → ∃ c, v = .class c) : Sound runs h (b.insert name v) where
  valid other w hw := by
    rw [Bindings.find?_insert] at hw
    split at hw
    next => exact Option.some.inj hw ▸ hv
    next => exact hb.valid other w hw
  this w hw := by
    rw [Bindings.find?_insert] at hw
    split at hw
    next heq => exact Option.some.inj hw ▸ hthis heq.symm
    next => exact hb.this w hw
  super w hw := by
    rw [Bindings.find?_insert] at hw
    split at hw
    next heq => exact Option.some.inj hw ▸ hsuper heq.symm
    next => exact hb.super w hw

namespace Good

variable (hgood : Good runs h)
include hgood

/-- The scopes may have changed, and nothing else but by additions. -/
theorem scopes (hh : h.Extends h') (hscope : ∀ j, Sound runs h' (h'.getScope j).bindings)
    (hclasses : h'.classes = h.classes) (hinstances : h'.instances = h.instances) :
    Good runs h' where
  scope := hscope
  method c name f hf := by
    have hmethod := hgood.method c name f (by simpa [Heap.getClass,hclasses] using hf)
    exact hmethod.extends hh
  field i name v hv := by
    have hvalid := hgood.field i name v (by simpa [Heap.getInstance,hinstances] using hv)
    exact hvalid.extends hh

/-- The value may refer to the name, as a function does that calls itself. -/
theorem define_recursive {name : String} (hname : name ≠ "this" ∧ name ≠ "super") {v : Value}
    {i : ScopeId} (hv : Valid runs (h.define i name v) v) : Good runs (h.define i name v) := by
  have hh := Heap.Extends.define h i name v
  apply hgood.scopes hh _ rfl rfl
  intro j
  have hj := (hgood.scope j).extends hh
  rw [Heap.getScope_define]
  split
  · exact hj.insert hv (fun heq => absurd heq hname.1) (fun heq => absurd heq hname.2)
  · exact hj

theorem define {name : String} (hname : name ≠ "this" ∧ name ≠ "super") {v : Value}
    (hv : Valid runs h v) (i : ScopeId) : Good runs (h.define i name v) :=
  hgood.define_recursive hname (hv.extends (.define h i name v))

theorem addScope {s : Scope} (hs : Sound runs h s.bindings) : Good runs (h.addScope s).2 := by
  have hh := Heap.Extends.addScope h s
  apply hgood.scopes hh _ rfl rfl
  intro j
  rw [Heap.getScope_addScope]
  split
  · exact hs.extends hh
  · exact (hgood.scope j).extends hh

theorem addFunction (f : Function) : Good runs (h.addFunction f).2 := by
  have hh := Heap.Extends.addFunction h f
  exact hgood.scopes hh (fun j => (hgood.scope j).extends hh) rfl rfl

theorem addClass {k : Class} (hk : ∀ name f, k.methods.find? name = some f → IsMethod runs h f) :
    Good runs (h.addClass k).2 := by
  have hh : h.Extends (h.addClass k).2 := .of_eq rfl rfl
  refine ⟨fun j => (hgood.scope j).extends hh,fun c name f hf => ?_,fun i name v hv => ?_⟩
  · rw [Heap.getClass_addClass] at hf
    split at hf
    · exact (hk name f hf).extends hh
    · exact (hgood.method c name f hf).extends hh
  · exact (hgood.field i name v hv).extends hh

theorem addInstance (c : ClassId) : Good runs (h.addInstance ⟨c,∅⟩).2 := by
  have hh : h.Extends (h.addInstance ⟨c,∅⟩).2 := .of_eq rfl rfl
  refine ⟨fun j => (hgood.scope j).extends hh,fun c name f hf => ?_,fun i name v hv => ?_⟩
  · exact (hgood.method c name f hf).extends hh
  · rw [Heap.getInstance_addInstance] at hv
    split at hv
    · simp at hv
    · exact (hgood.field i name v hv).extends hh

theorem setField {v : Value} (hv : Valid runs h v) (i : InstanceId) (name : String) :
    Good runs (h.setField i name v) := by
  have hh : h.Extends (h.setField i name v) := .of_eq rfl rfl
  refine ⟨fun j => (hgood.scope j).extends hh,fun c name f hf => ?_,fun j other w hw => ?_⟩
  · exact (hgood.method c name f hf).extends hh
  · rcases Heap.find?_setField hw with rfl | hw
    · exact hv.extends hh
    · exact (hgood.field j other w hw).extends hh

theorem findMethod {c : ClassId} {name : String} {f : FunctionId}
    (hf : h.findMethod? c name = some f) : IsMethod runs h f := by
  obtain ⟨k,hk⟩ := Heap.findMethod?_mem hf
  exact hgood.method k name f hk

end Good

/-! ### Looking outward -/

theorem Chain.outward {frames : List Frame} {j : ScopeId} (hchain : Chain runs h frames j)
    (distance : Nat) {left : Nat} {f : Frame} (hf : frames[left]? = some f) :
    ∃ k, h.outward distance left j = .ok k ∧ Activation runs f.site k ∧
      ∀ name, f.names.find? name = some true → h.Binds k name := by
  induction hchain generalizing left with
  | nil => simp at hf
  | @cons g frames j k hj hk hbinds hsite houter ih =>
    cases left with
    | zero =>
      obtain rfl : g = f := by simpa using hf
      exact ⟨j,rfl,hsite,hbinds⟩
    | succ left =>
      simp only [Heap.outward,hk]
      exact ih hf

/-- The scope at a distance is the one that belongs to the static scope at that distance. -/
theorem Chain.lookupAt {frames : List Frame} {j : ScopeId} (hchain : Chain runs h frames j) {d : Nat}
    {f : Frame} (hf : frames[d]? = some f) {name : String} (hname : f.names.find? name = some true) :
    ∃ k v, h.ancestor j d = .ok k ∧ Activation runs f.site k ∧ h.lookupAt j d name = .ok (k,v) ∧
      (h.getScope k).bindings.find? name = some v := by
  obtain ⟨k,hk,hsite,hbinds⟩ := hchain.outward d hf
  have hancestor : h.ancestor j d = .ok k := hk
  obtain ⟨v,hv⟩ := Option.isSome_iff_exists.mp (hbinds name hname)
  exact ⟨k,v,hancestor,hsite,by simp [Heap.lookupAt,hancestor,hv],hv⟩

end Lox

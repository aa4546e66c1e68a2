import Lox.Heap
import Lox.Proofs.Scoping.Resolver

/-! How the tables of a heap change: objects are only added, and a scope keeps its names. -/
namespace Lox.Heap

variable {h : Heap}

/-- The scope has a binding of its own for the name. -/
def Binds (h : Heap) (j : ScopeId) (name : String) : Prop :=
  (h.getScope j).bindings.contains name = true

/-! ### Reading after writing -/

theorem getScope_addScope (h : Heap) (s : Scope) (j : ScopeId) :
    (h.addScope s).2.getScope j = if j.index = h.scopes.size then s else h.getScope j := by
  simp only [getScope,addScope,Array.getElem?_push]
  split
  · rfl
  · rfl

theorem getScope_new (h : Heap) (s : Scope) : (h.addScope s).2.getScope ⟨h.scopes.size⟩ = s := by
  simp [getScope_addScope]

theorem getScope_define (h : Heap) (i j : ScopeId) (name : String) (v : Value) :
    (h.define i name v).getScope j =
      if i = j ∧ i.index < h.scopes.size then
        { h.getScope j with bindings := (h.getScope j).bindings.insert name v }
      else h.getScope j := by
  obtain ⟨i⟩ := i
  obtain ⟨j⟩ := j
  simp only [getScope,define,Array.getElem?_modify,ScopeId.mk.injEq]
  by_cases hij : i = j
  · subst hij
    by_cases hi : i < h.scopes.size
    · simp [hi]
    · simp [hi]
  · simp [hij]

@[simp] theorem define_size (h : Heap) (i : ScopeId) (name : String) (v : Value) :
    (h.define i name v).scopes.size = h.scopes.size := by
  simp [define]

theorem binds_define (h : Heap) (i j : ScopeId) (name other : String) (v : Value) :
    (h.define i name v).Binds j other ↔
      (i = j ∧ i.index < h.scopes.size ∧ other = name) ∨ h.Binds j other := by
  simp only [Binds,getScope_define]
  split
  next hij =>
    obtain ⟨rfl,hi⟩ := hij
    simp [Bindings.contains_insert,hi]
  next hij =>
    constructor
    · exact .inr
    · rintro (⟨rfl,hi,-⟩ | hj)
      · exact absurd ⟨rfl,hi⟩ hij
      · exact hj

theorem getFunction_addFunction (h : Heap) (f : Function) (g : FunctionId) :
    (h.addFunction f).2.getFunction g = if g.index = h.functions.size then f else h.getFunction g := by
  simp only [getFunction,addFunction,Array.getElem?_push]
  split
  · rfl
  · rfl

theorem getClass_addClass (h : Heap) (k : Class) (c : ClassId) :
    (h.addClass k).2.getClass c = if c.index = h.classes.size then k else h.getClass c := by
  simp only [getClass,addClass,Array.getElem?_push]
  split
  · rfl
  · rfl

theorem getInstance_addInstance (h : Heap) (o : Instance) (i : InstanceId) :
    (h.addInstance o).2.getInstance i =
      if i.index = h.instances.size then o else h.getInstance i := by
  simp only [getInstance,addInstance,Array.getElem?_push]
  split
  · rfl
  · rfl

theorem find?_setField {i j : InstanceId} {name other : String} {v w : Value}
    (hw : ((h.setField i name v).getInstance j).fields.find? other = some w) :
    w = v ∨ (h.getInstance j).fields.find? other = some w := by
  obtain ⟨i⟩ := i
  obtain ⟨j⟩ := j
  simp only [getInstance,setField,Array.getElem?_modify] at hw ⊢
  by_cases hij : i = j
  · subst hij
    by_cases hi : i < h.instances.size
    · simp only [hi,getElem?_pos,Option.map_some,Option.getD_some,if_true,Bindings.find?_insert] at hw
      split at hw
      next => exact .inl (Option.some.inj hw).symm
      next => exact .inr (by simpa [hi] using hw)
    · simp [hi] at hw
      exact .inr (by simpa [hi] using hw)
  · exact .inr (by simpa [hij] using hw)

/-! ### Growth -/

/-- The second heap has all objects of the first. Its scopes may have more names. -/
structure Extends (h h' : Heap) : Prop where
  scopes : h.scopes.size ≤ h'.scopes.size
  enclosing : ∀ j, j.index < h.scopes.size → (h'.getScope j).enclosing = (h.getScope j).enclosing
  binds : ∀ j name, h.Binds j name → h'.Binds j name
  functions : h.functions.size ≤ h'.functions.size
  function : ∀ f, f.index < h.functions.size → h'.getFunction f = h.getFunction f

namespace Extends

theorem refl (h : Heap) : h.Extends h := ⟨Nat.le_refl _,by simp,by simp,Nat.le_refl _,by simp⟩

theorem trans {h₁ h₂ : Heap} (a : h.Extends h₁) (b : h₁.Extends h₂) : h.Extends h₂ where
  scopes := Nat.le_trans a.scopes b.scopes
  enclosing j hj :=
    (b.enclosing j (Nat.lt_of_lt_of_le hj a.scopes)).trans (a.enclosing j hj)
  binds j name hj := b.binds j name (a.binds j name hj)
  functions := Nat.le_trans a.functions b.functions
  function f hf :=
    (b.function f (Nat.lt_of_lt_of_le hf a.functions)).trans (a.function f hf)

/-- Only classes and instances differ. -/
theorem of_eq {h' : Heap} (hscopes : h'.scopes = h.scopes) (hfunctions : h'.functions = h.functions) :
    h.Extends h' := by
  obtain ⟨scopes,functions,_,_⟩ := h
  obtain ⟨scopes',functions',_,_⟩ := h'
  simp only at hscopes hfunctions
  subst hscopes hfunctions
  exact ⟨Nat.le_refl _,fun _ _ => rfl,fun _ _ hj => hj,Nat.le_refl _,fun _ _ => rfl⟩

theorem define (h : Heap) (i : ScopeId) (name : String) (v : Value) :
    h.Extends (h.define i name v) where
  scopes := by simp
  enclosing j _ := by
    rw [getScope_define]
    split <;> rfl
  binds j other hj := (binds_define h i j name other v).mpr (.inr hj)
  functions := Nat.le_refl _
  function _ _ := rfl

theorem addScope (h : Heap) (s : Scope) : h.Extends (h.addScope s).2 where
  scopes := by simp [Heap.addScope]
  enclosing j hj := by rw [getScope_addScope,if_neg (Nat.ne_of_lt hj)]
  binds j name hj := by
    rw [Binds,getScope_addScope]
    split
    next heq =>
      have hnone : h.scopes[j.index]? = none := by simp [heq]
      simp [Binds,getScope,hnone,default] at hj
    next => exact hj
  functions := Nat.le_refl _
  function _ _ := rfl

theorem addFunction (h : Heap) (f : Function) : h.Extends (h.addFunction f).2 where
  scopes := Nat.le_refl _
  enclosing _ _ := rfl
  binds _ _ hj := hj
  functions := by simp [Heap.addFunction]
  function g hg := by rw [getFunction_addFunction,if_neg (Nat.ne_of_lt hg)]

end Extends

/-! ### Chains of scopes -/

/-- The search for a name ends in a scope that binds it. -/
theorem lookup?_binds {name : String} {fuel : Nat} {i j : ScopeId} {v : Value}
    (h' : h.lookup? name fuel i = some (j,v)) :
    (h.getScope j).bindings.find? name = some v := by
  induction fuel generalizing i with
  | zero => simp [lookup?] at h'
  | succ fuel ih =>
    simp only [lookup?] at h'
    split at h'
    next v' hv =>
      simp only [Option.some.injEq,Prod.mk.injEq] at h'
      obtain ⟨rfl,rfl⟩ := h'
      exact hv
    next =>
      split at h'
      next => simp at h'
      next => exact ih h'

theorem holder?_binds {name : String} {i j : ScopeId} (h' : h.holder? i name = some j) :
    h.Binds j name := by
  obtain ⟨⟨k,v⟩,hk,rfl⟩ := Option.map_eq_some_iff.mp h'
  rw [Binds,Bindings.contains,lookup?_binds hk]
  rfl

/-- A name that is bound in a scope is found there at once. -/
theorem holder?_here {name : String} {i : ScopeId} {v : Value} (hsize : 0 < h.scopes.size)
    (hv : (h.getScope i).bindings.find? name = some v) : h.holder? i name = some i := by
  obtain ⟨n,hn⟩ := Nat.exists_eq_succ_of_ne_zero (Nat.ne_of_gt hsize)
  simp only [holder?,hn,lookup?,hv,Option.map_some]

theorem lookupAt_binds {name : String} {i : ScopeId} {d : Nat} {jv : ScopeId × Value}
    (h' : h.lookupAt i d name = .ok jv) : h.Binds jv.1 name := by
  simp only [lookupAt] at h'
  split at h'
  next => simp at h'
  next j _ =>
    split at h'
    next v hv =>
      obtain rfl := Except.ok.inj h'
      simp [Binds,Bindings.contains,hv]
    next => simp at h'

/-- Methods are found in the classes, whatever the other objects are. -/
theorem findMethod?_congr {h' : Heap} (hclasses : h'.classes = h.classes) (c : ClassId) (name : String) :
    h'.findMethod? c name = h.findMethod? c name := by
  have hsearch (fuel : Nat) (c : ClassId) : h'.searchMethod name fuel c = h.searchMethod name fuel c := by
    induction fuel generalizing c with
    | zero => rfl
    | succ fuel ih => simp only [searchMethod,getClass,hclasses,ih]
  rw [findMethod?,findMethod?,hclasses,hsearch]

/-- A method that is found belongs to one of the classes. -/
theorem findMethod?_mem {c : ClassId} {name : String} {f : FunctionId} (hf : h.findMethod? c name = some f) :
    ∃ k, (h.getClass k).methods.find? name = some f := by
  have hsearch (fuel : Nat) (c : ClassId) (hf : h.searchMethod name fuel c = some f) :
      ∃ k, (h.getClass k).methods.find? name = some f := by
    induction fuel generalizing c with
    | zero => simp [searchMethod] at hf
    | succ fuel ih =>
      simp only [searchMethod] at hf
      split at hf
      next g hfound =>
        obtain rfl := Option.some.inj hf
        exact ⟨c,hfound⟩
      next =>
        split at hf
        next => simp at hf
        next parent _ => exact ih parent hf
  exact hsearch _ c hf

theorem property?_congr {h' : Heap} (hclasses : h'.classes = h.classes) (hinstances : h'.instances = h.instances)
    (i : InstanceId) (name : String) : h'.property? i name = h.property? i name := by
  simp only [property?,findMethod?_congr hclasses,getInstance,hinstances]

/-- Values look the same where their functions have the same names. -/
theorem display_congr {h' : Heap} (hclasses : h'.classes = h.classes) (hinstances : h'.instances = h.instances)
    {v : Value} (hname : ∀ f, v = .function f → (h'.getFunction f).name = (h.getFunction f).name) :
    h'.display v = h.display v := by
  cases v with
  | function f => simp only [display,hname f rfl]
  | «class» c => simp only [display,getClass,hclasses]
  | «instance» i => simp only [display,getClass,getInstance,hclasses,hinstances]
  | _ => rfl

/-- Values are called alike where their functions, and the initializers of classes, have the same names and
parameters. -/
theorem callable?_congr {h' : Heap} (hclasses : h'.classes = h.classes) {v : Value}
    (hname : ∀ f, v = .function f → (h'.getFunction f).name = (h.getFunction f).name)
    (harity : ∀ f, v = .function f ∨ (∃ k, (h.getClass k).methods.find? "init" = some f) →
      (h'.getFunction f).arity = (h.getFunction f).arity) : h'.callable? v = h.callable? v := by
  cases v with
  | function f => simp only [callable?,hname f rfl,harity f (.inl rfl)]
  | «class» c =>
    have hclass : h'.classArity c = h.classArity c := by
      simp only [classArity,findMethod?_congr hclasses]
      cases hf : h.findMethod? c "init" with
      | none => rfl
      | some f => exact harity f (.inr (findMethod?_mem hf))
    simp only [callable?,getClass,hclasses,hclass]
  | _ => rfl

/-- A property is a field of the instance or a method of one of the classes. -/
theorem property?_from {i : InstanceId} {name : String} {found : Property} (hfound : h.property? i name = some found) :
    (∃ v, found = .field v ∧ (h.getInstance i).fields.find? name = some v) ∨
      ∃ f k, found = .method f ∧ (h.getClass k).methods.find? name = some f := by
  simp only [property?] at hfound
  split at hfound
  next v hv => exact .inl ⟨v,(Option.some.inj hfound).symm,hv⟩
  next =>
    obtain ⟨f,hf,rfl⟩ := Option.map_eq_some_iff.mp hfound
    obtain ⟨k,hk⟩ := findMethod?_mem hf
    exact .inr ⟨f,k,rfl,hk⟩

end Lox.Heap

import Lox.Proofs.Heap.Access
import Lox.Proofs.Heap.Retained

/-! Heaps whose links lead back in time. The objects may refer to each other in circles, but whoever follows the scopes
outward comes to the global one, and whoever follows the superclasses comes to a class without one. -/
namespace Lox.Heap

/-- Each scope but the global one lies in an older scope, and each class extends an older class. Functions close over
scopes that are there, and instances are of classes that are there. -/
structure Founded (h : Heap) : Prop where
  root : 0 < h.scopes.size
  outermost : (h.getScope globals).enclosing = none
  enclosing : ∀ i, i.index < h.scopes.size → i ≠ globals →
    ∃ k, (h.getScope i).enclosing = some k ∧ k.index < i.index
  closure : ∀ f, f.index < h.functions.size → (h.getFunction f).closure.index < h.scopes.size
  superclass : h.Ordered
  ofClass : ∀ i, i.index < h.instances.size → (h.getInstance i).ofClass.index < h.classes.size

/-- The classes from one upward, up to the one that has no superclass. -/
inductive ClassChain (h : Heap) : ClassId → List ClassId → Prop
  | last {c} (hc : c.index < h.classes.size) (hnone : (h.getClass c).superclass = none) : ClassChain h c [c]
  | link {c p chain} (hc : c.index < h.classes.size) (hp : (h.getClass c).superclass = some p)
    (hchain : ClassChain h p chain) : ClassChain h c (c :: chain)

/-- What is sought outward from a scope is sought in these scopes, one after the other. -/
structure SoughtAlong (h : Heap) (i : ScopeId) (chain : List ScopeId) : Prop where
  get? : ∀ name, h.get? i name = chain.findSome? fun k => (h.getScope k).bindings.find? name
  assign? : ∀ name v, h.assign? i name v =
    (chain.find? fun k => (h.getScope k).bindings.contains name).map fun k => h.define k name v
  ancestor : ∀ d, h.ancestor i d = chain[d]?.elim (.error (.chainEnded (chain.length - 1) d)) .ok

variable {h : Heap} {i : ScopeId} {c : ClassId}

/-! ### Scopes -/

/-- Each step outward leads to a scope with a smaller place in the table. -/
theorem Founded.scopeChain (hh : h.Founded) (hi : i.index < h.scopes.size) :
    ∃ chain, h.ScopeChain i chain ∧ chain.getLast? = some globals := by
  induction hn : i.index using Nat.strongRecOn generalizing i with
  | ind n ih =>
    by_cases hglobal : i = globals
    · subst hglobal
      exact ⟨[globals],.last hi hh.outermost,rfl⟩
    · obtain ⟨k,hk,hless⟩ := hh.enclosing i hi hglobal
      obtain ⟨chain,hchain,hlast⟩ := ih k.index (hn ▸ hless) (Nat.lt_trans hless hi) rfl
      exact ⟨i :: chain,.link hi hk hchain,by simp [List.getLast?_cons,hlast]⟩

namespace ScopeChain

variable {chain : List ScopeId} (hchain : h.ScopeChain i chain)
include hchain

theorem get?_eq (name : String) : h.get? i name = chain.findSome? fun k => (h.getScope k).bindings.find? name := by
  rw [get?,hchain.lookup?_eq name hchain.length_le,List.map_findSome?]
  refine congrArg (chain.findSome? ·) (funext fun k => ?_)
  cases hv : (h.getScope k).bindings.find? name <;> simp [hv]

theorem holder?_eq (name : String) :
    h.holder? i name = chain.find? fun k => (h.getScope k).bindings.contains name := by
  rw [holder?,hchain.lookup?_eq name hchain.length_le,List.map_findSome?,List.find?_eq_findSome?_guard]
  refine congrArg (chain.findSome? ·) (funext fun k => ?_)
  cases hv : (h.getScope k).bindings.find? name <;> simp [hv,Option.guard,Bindings.contains]

theorem soughtAlong : h.SoughtAlong i chain where
  get? := hchain.get?_eq
  assign? name v := by rw [assign?,hchain.holder?_eq]
  ancestor d := by
    cases hd : chain[d]? with
    | some k => exact hchain.outward_ok hd
    | none =>
      have hbeyond := hchain.outward_error (Nat.le_refl d) (List.getElem?_eq_none_iff.mp hd)
      rwa [Nat.sub_self,Nat.zero_add] at hbeyond

end ScopeChain

/-! ### Classes -/

theorem Ordered.classChain (ho : h.Ordered) (hc : c.index < h.classes.size) :
    ∃ chain, h.ClassChain c chain ∧ chain.length ≤ c.index + 1 := by
  induction hn : c.index using Nat.strongRecOn generalizing c with
  | ind n ih =>
    cases hp : (h.getClass c).superclass with
    | none => exact ⟨[c],.last hc hp,by simp⟩
    | some p =>
      have hless := ho c p hp
      obtain ⟨chain,hchain,hlength⟩ := ih p.index (hn ▸ hless) (Nat.lt_trans hless hc) rfl
      exact ⟨c :: chain,.link hc hp hchain,by simp only [List.length_cons]; omega⟩

namespace ClassChain

variable {chain chain' : List ClassId}

theorem unique (hchain : h.ClassChain c chain) (hchain' : h.ClassChain c chain') : chain = chain' := by
  induction hchain generalizing chain' with
  | last _ hnone =>
    cases hchain' with
    | last => rfl
    | link _ hp => cases hnone.symm.trans hp
  | link _ hp _ ih =>
    cases hchain' with
    | last _ hnone => cases hnone.symm.trans hp
    | link _ hp' hrest =>
      obtain rfl := Option.some.inj (hp.symm.trans hp')
      rw [ih hrest]

theorem searchMethod_eq (hchain : h.ClassChain c chain) (name : String) {fuel : Nat} (hfuel : chain.length ≤ fuel) :
    h.searchMethod name fuel c = chain.findSome? fun k => (h.getClass k).methods.find? name := by
  induction hchain generalizing fuel with
  | @last c _ hnone =>
    obtain ⟨fuel,rfl⟩ := Nat.exists_eq_add_of_le' hfuel
    cases hf : (h.getClass c).methods.find? name <;> simp [searchMethod,hf,hnone]
  | @link c _ _ _ hp _ ih =>
    obtain ⟨fuel,rfl⟩ : ∃ fuel', fuel = fuel' + 1 := ⟨fuel - 1,by simp only [List.length_cons] at hfuel; omega⟩
    have hrest := ih (Nat.le_of_succ_le_succ hfuel)
    cases hf : (h.getClass c).methods.find? name <;> simp [searchMethod,hf,hp,hrest]

end ClassChain

/-- A method is sought in all classes of the chain, since there are no more of them than classes in all. -/
theorem Founded.classChain (hh : h.Founded) (hc : c.index < h.classes.size) : ∃ chain, h.ClassChain c chain ∧
    ∀ name, h.findMethod? c name = chain.findSome? fun k => (h.getClass k).methods.find? name := by
  obtain ⟨chain,hchain,hlength⟩ := hh.superclass.classChain hc
  exact ⟨chain,hchain,fun name => hchain.searchMethod_eq name (Nat.le_trans hlength hc)⟩

end Lox.Heap

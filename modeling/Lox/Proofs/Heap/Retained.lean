import Lox.Proofs.Heap.Teardown
import Lox.Proofs.Run.Heap

/-! What stays as it is in a heap: the receivers and the superclasses that scopes hold, and the classes. Programs
cannot name the former, and they have no means of changing the latter. -/
namespace Lox.Heap

/-- The second heap has the scopes and classes of the first. The classes have not changed, and the scopes hold the
same receivers and superclasses. -/
structure Retains (h h' : Heap) : Prop where
  scopes : h.scopes.size ≤ h'.scopes.size
  holds : ∀ name, name = "this" ∨ name = "super" → ∀ j, j.index < h.scopes.size →
    (h'.getScope j).bindings.find? name = (h.getScope j).bindings.find? name
  classes : h.classes.size ≤ h'.classes.size
  getClass : ∀ c, c.index < h.classes.size → h'.getClass c = h.getClass c

namespace Retains

variable {h h₁ h₂ : Heap}

theorem refl (h : Heap) : h.Retains h := ⟨Nat.le_refl _,fun _ _ _ _ => rfl,Nat.le_refl _,fun _ _ => rfl⟩

theorem trans (a : h.Retains h₁) (b : h₁.Retains h₂) : h.Retains h₂ where
  scopes := Nat.le_trans a.scopes b.scopes
  holds name hname j hj := (b.holds name hname j (Nat.lt_of_lt_of_le hj a.scopes)).trans (a.holds name hname j hj)
  classes := Nat.le_trans a.classes b.classes
  getClass c hc := (b.getClass c (Nat.lt_of_lt_of_le hc a.classes)).trans (a.getClass c hc)

/-- Only functions and instances differ. -/
theorem of_eq (hscopes : h₁.scopes = h.scopes) (hclasses : h₁.classes = h.classes) : h.Retains h₁ where
  scopes := Nat.le_of_eq (congrArg Array.size hscopes.symm)
  holds _ _ _ _ := by simp only [getScope,hscopes]
  classes := Nat.le_of_eq (congrArg Array.size hclasses.symm)
  getClass _ _ := by simp only [Heap.getClass,hclasses]

theorem define (h : Heap) (i : ScopeId) {name : String} (hname : name ≠ "this" ∧ name ≠ "super") (v : Value) :
    h.Retains (h.define i name v) where
  scopes := by simp
  holds other hother j _ := by
    have hne : other ≠ name := by
      rcases hother with rfl | rfl
      · exact hname.1.symm
      · exact hname.2.symm
    rw [getScope_define]
    split
    · rw [Bindings.find?_insert,if_neg hne]
    · rfl
  classes := Nat.le_refl _
  getClass _ _ := rfl

theorem addScope (h : Heap) (s : Scope) : h.Retains (h.addScope s).2 where
  scopes := by simp [Heap.addScope]
  holds _ _ j hj := by rw [getScope_addScope,if_neg (Nat.ne_of_lt hj)]
  classes := Nat.le_refl _
  getClass _ _ := rfl

theorem addFunction (h : Heap) (f : Function) : h.Retains (h.addFunction f).2 := .of_eq rfl rfl

theorem addClass (h : Heap) (k : Class) : h.Retains (h.addClass k).2 where
  scopes := Nat.le_refl _
  holds _ _ _ _ := rfl
  classes := by simp [Heap.addClass]
  getClass c hc := by rw [getClass_addClass,if_neg (Nat.ne_of_lt hc)]

theorem addInstance (h : Heap) (o : Instance) : h.Retains (h.addInstance o).2 := .of_eq rfl rfl

theorem setField (h : Heap) (i : InstanceId) (name : String) (v : Value) : h.Retains (h.setField i name v) :=
  .of_eq rfl rfl

theorem bind (h : Heap) (f : FunctionId) (i : InstanceId) : h.Retains (h.bind f i).2 :=
  (addScope h _).trans (addFunction _ _)

/-- The classes of an earlier heap are ordered if they are so later on. -/
theorem ordered (a : h.Retains h₁) (h' : h₁.Ordered) : h.Ordered := by
  intro c p hp
  have hc : c.index < h.classes.size := by
    refine Nat.lt_of_not_le fun hout => ?_
    simp [Heap.getClass,Array.getElem?_eq_none hout,default] at hp
  exact h' c p (by rw [a.getClass c hc,hp])

end Retains

/-! ### Searching -/

/-- The value that a name has in the nearest scope outward that binds it. -/
inductive Nearest (h : Heap) (name : String) : ScopeId → Value → Prop
  | here {i v} (hv : (h.getScope i).bindings.find? name = some v) : Nearest h name i v
  | outward {i k v} (hnone : (h.getScope i).bindings.find? name = none) (hk : (h.getScope i).enclosing = some k)
    (hv : Nearest h name k v) : Nearest h name i v

/-- The method of the nearest class upward that has one of this name, or none if no class upward has. -/
inductive Inherits (h : Heap) (name : String) : ClassId → Option FunctionId → Prop
  | own {c f} (hf : (h.getClass c).methods.find? name = some f) : Inherits h name c (some f)
  | inherited {c parent f?} (hnone : (h.getClass c).methods.find? name = none)
    (hparent : (h.getClass c).superclass = some parent) (hf : Inherits h name parent f?) : Inherits h name c f?
  | missing {c} (hnone : (h.getClass c).methods.find? name = none) (hparent : (h.getClass c).superclass = none) :
    Inherits h name c none

variable {h : Heap} {name : String}

theorem Nearest.unique {i : ScopeId} {v w : Value} (hv : h.Nearest name i v) (hw : h.Nearest name i w) : v = w := by
  induction hv with
  | here hv => cases hw <;> simp_all
  | outward hnone hk _ ih => cases hw <;> simp_all

theorem Inherits.unique {c : ClassId} {f? g? : Option FunctionId} (hf : h.Inherits name c f?)
    (hg : h.Inherits name c g?) : f? = g? := by
  induction hf with
  | own hf => cases hg <;> simp_all
  | inherited hnone hparent _ ih => cases hg <;> simp_all
  | missing hnone hparent => cases hg <;> simp_all

/-- A search that goes through as many classes as there are up to this one comes to its end. -/
theorem inherits_searchMethod (hh : h.Ordered) {fuel : Nat} {c : ClassId} (hc : c.index < fuel) :
    h.Inherits name c (h.searchMethod name fuel c) := by
  induction fuel generalizing c with
  | zero => exact absurd hc (Nat.not_lt_zero _)
  | succ fuel ih =>
    simp only [searchMethod]
    cases hf : (h.getClass c).methods.find? name with
    | some f => exact .own hf
    | none =>
      cases hparent : (h.getClass c).superclass with
      | none => exact .missing hf hparent
      | some parent =>
        have hless := hh c parent hparent
        exact .inherited hf hparent (ih (by omega))

/-- The method that is found is that of the nearest class. -/
theorem inherits_findMethod? (hh : h.Ordered) (c : ClassId) (name : String) :
    h.Inherits name c (h.findMethod? c name) := by
  by_cases hc : c.index < h.classes.size
  · exact inherits_searchMethod hh hc
  · have hclass : h.getClass c = default := by
      simp [getClass,Array.getElem?_eq_none (Nat.le_of_not_lt hc)]
    have hnone : h.findMethod? c name = none := by
      rw [findMethod?]
      cases h.classes.size with
      | zero => rfl
      | succ fuel => simp [searchMethod,hclass,default]
    rw [hnone]
    exact .missing (by simp [hclass,default]) (by simp [hclass,default])

end Lox.Heap

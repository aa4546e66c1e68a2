import Lox.Proofs.Alike.Tree
import Lox.Proofs.Run.Heap

/-! Heaps with the same objects, where one heap may have more of each kind in front of those that it shares
with the other one. -/
namespace Lox

/-- How the objects of one machine stand for those of another one. The second one has the given numbers of
additional objects, and may have global names that are left over from before. Readings of a clock need only
be the same if programs can take them. What the machines had printed `before` need not be the same. -/
structure Correspondence where
  like : Likeness
  scopes : Nat
  functions : Nat
  classes : Nat
  instances : Nat
  leftover : String → Prop
  timed : Prop
  before : ByteArray
  before' : ByteArray
  spelt : ∀ {t t'}, like.token t t' → t.lexeme = Native.clock.name → timed

namespace Correspondence

variable (c : Correspondence)

/-- A name that is compared. -/
def Visible (name : String) : Prop := name = Native.clock.name → c.timed

/-- The global scope always stands for itself. -/
def scope (i : ScopeId) : ScopeId := if i = Heap.globals then i else ⟨i.index + c.scopes⟩

def function (f : FunctionId) : FunctionId := ⟨f.index + c.functions⟩

def «class» (k : ClassId) : ClassId := ⟨k.index + c.classes⟩

def «instance» (i : InstanceId) : InstanceId := ⟨i.index + c.instances⟩

def value : Value → Value
  | .function f => .function (c.function f)
  | .class k => .class (c.class k)
  | .instance i => .instance (c.instance i)
  | v => v

def property : Heap.Property → Heap.Property
  | .field v => .field (c.value v)
  | .method f => .method (c.function f)

/-- A value that programs can come by, with an object that exists. -/
def Knows (h : Heap) : Value → Prop
  | .native .clock => c.timed
  | .class k => k.index < h.classes.size
  | .instance i => i.index < h.instances.size
  | _ => True

theorem visible_token {t t' : Token} (h : c.like.token t t') : c.Visible t.lexeme := c.spelt h

theorem visible_of_ne {name : String} (h : name ≠ Native.clock.name) : c.Visible name :=
  fun heq => absurd heq h

@[simp] theorem scope_globals : c.scope Heap.globals = Heap.globals := rfl

theorem scope_injective {i j : ScopeId} (h : c.scope i = c.scope j) : i = j := by
  obtain ⟨i⟩ := i
  obtain ⟨j⟩ := j
  simp only [scope,Heap.globals,ScopeId.mk.injEq] at h ⊢
  split at h <;> split at h <;> simp only [ScopeId.mk.injEq] at h <;> omega

theorem scope_new {n : Nat} (h : 0 < n) : c.scope ⟨n⟩ = ⟨n + c.scopes⟩ := by
  simp [scope,Heap.globals,Nat.ne_of_gt h]

@[simp] theorem value_truthy (v : Value) : (c.value v).isTruthy = v.isTruthy := by
  cases v <;> rfl

@[simp] theorem function_inj {f g : FunctionId} : c.function f = c.function g ↔ f = g := by
  cases f
  cases g
  simp [function]

@[simp] theorem class_inj {k p : ClassId} : c.class k = c.class p ↔ k = p := by
  cases k
  cases p
  simp [«class»]

@[simp] theorem instance_inj {i j : InstanceId} : c.instance i = c.instance j ↔ i = j := by
  cases i
  cases j
  simp [«instance»]

@[simp] theorem value_same (v w : Value) : (c.value v).same (c.value w) = v.same w := by
  cases v <;> cases w <;> simp [value,Value.same,BEq.beq]

end Correspondence

/-- Objects of all kinds may have been added, and scopes keep their names. -/
structure Heap.Grows (h h' : Heap) : Prop extends h.Extends h' where
  classes : h.classes.size ≤ h'.classes.size
  instances : h.instances.size ≤ h'.instances.size

namespace Heap.Grows

theorem refl (h : Heap) : h.Grows h := ⟨.refl h,Nat.le_refl _,Nat.le_refl _⟩

theorem trans {h h' h'' : Heap} (a : h.Grows h') (b : h'.Grows h'') : h.Grows h'' :=
  ⟨a.toExtends.trans b.toExtends,Nat.le_trans a.classes b.classes,Nat.le_trans a.instances b.instances⟩

theorem define (h : Heap) (i : ScopeId) (name : String) (v : Value) : h.Grows (h.define i name v) :=
  ⟨.define h i name v,Nat.le_refl _,Nat.le_refl _⟩

theorem addScope (h : Heap) (s : Scope) : h.Grows (h.addScope s).2 :=
  ⟨.addScope h s,Nat.le_refl _,Nat.le_refl _⟩

theorem addFunction (h : Heap) (f : Function) : h.Grows (h.addFunction f).2 :=
  ⟨.addFunction h f,Nat.le_refl _,Nat.le_refl _⟩

theorem addClass (h : Heap) (k : Class) : h.Grows (h.addClass k).2 :=
  ⟨.of_eq rfl rfl,by simp [Heap.addClass],Nat.le_refl _⟩

theorem addInstance (h : Heap) (o : Instance) : h.Grows (h.addInstance o).2 :=
  ⟨.of_eq rfl rfl,Nat.le_refl _,by simp [Heap.addInstance]⟩

theorem setField (h : Heap) (i : InstanceId) (name : String) (v : Value) :
    h.Grows (h.setField i name v) :=
  ⟨.of_eq rfl rfl,Nat.le_refl _,by simp [Heap.setField]⟩

theorem bind (h : Heap) (f : FunctionId) (i : InstanceId) : h.Grows (h.bind f i).2 :=
  (addScope h _).trans (addFunction _ _)

end Heap.Grows

theorem Correspondence.Knows.mono {c : Correspondence} {h h' : Heap} {v : Value} (hv : c.Knows h v)
    (hgrows : h.Grows h') : c.Knows h' v := by
  cases v with
  | native f =>
    cases f
    exact hv
  | «class» k => exact Nat.lt_of_lt_of_le hv hgrows.classes
  | «instance» i => exact Nat.lt_of_lt_of_le hv hgrows.instances
  | _ => exact trivial

structure Function.Alike (c : Correspondence) (f f' : Function) : Prop where
  declaration : Stmt.FunctionAlike c.like f.declaration f'.declaration
  closure : f'.closure = c.scope f.closure
  isInitializer : f'.isInitializer = f.isInitializer

structure Class.Alike (c : Correspondence) (k k' : Class) : Prop where
  name : k'.name = k.name
  superclass : k'.superclass = k.superclass.map c.class
  methods : ∀ name, k'.methods.find? name = (k.methods.find? name).map c.function

/-- The same names with values that stand for each other. -/
structure Bindings.Alike (c : Correspondence) (h : Heap) (b b' : Bindings Value) : Prop where
  same : ∀ name, b'.find? name = (b.find? name).map c.value
  knows : ∀ name v, b.find? name = some v → c.Knows h v

/-- The same names, except for those that are left over in the global scope. -/
structure Scope.Alike (c : Correspondence) (h : Heap) (i : ScopeId) (s s' : Scope) : Prop where
  enclosing : s'.enclosing = s.enclosing.map c.scope
  bound : ∀ name v, c.Visible name → s.bindings.find? name = some v →
    s'.bindings.find? name = some (c.value v) ∧ c.Knows h v
  unbound : ∀ name, c.Visible name → s.bindings.find? name = none →
    s'.bindings.find? name = none ∨ i = Heap.globals ∧ c.leftover name

structure Instance.Alike (c : Correspondence) (h : Heap) (o o' : Instance) : Prop where
  ofClass : o'.ofClass = c.class o.ofClass
  known : o.ofClass.index < h.classes.size
  fields : o.fields.Alike c h o'.fields

structure Heap.Alike (c : Correspondence) (h h' : Heap) : Prop where
  scopes : h'.scopes.size = h.scopes.size + c.scopes
  functions : h'.functions.size = h.functions.size + c.functions
  classes : h'.classes.size = h.classes.size + c.classes
  instances : h'.instances.size = h.instances.size + c.instances
  root : 0 < h.scopes.size
  outermost : (h.getScope globals).enclosing = none
  scope : ∀ i, (h.getScope i).Alike c h i (h'.getScope (c.scope i))
  function : ∀ f, (h.getFunction f).Alike c (h'.getFunction (c.function f))
  «class» : ∀ k, (h.getClass k).Alike c (h'.getClass (c.class k))
  superclass : ∀ k p, (h.getClass k).superclass = some p → p.index < k.index
  «instance» : ∀ i, i.index < h.instances.size →
    (h.getInstance i).Alike c h (h'.getInstance (c.instance i))

/-- All global names that may be left over have been defined again. -/
def Correspondence.Complete (c : Correspondence) (h : Heap) : Prop :=
  ∀ name, c.leftover name → h.Binds Heap.globals name

variable {c : Correspondence} {h h' : Heap}

/-! ### Bindings -/

theorem Bindings.find?_ofList_map {α β : Type} (f : α → β) (pairs : List (String × α)) (name : String) :
    (ofList (pairs.map fun (n,a) => (n,f a))).find? name = ((ofList pairs).find? name).map f := by
  have hfold : ∀ (b : Bindings α) (b' : Bindings β), (b'.find? name = (b.find? name).map f) →
      ((pairs.map fun (n,a) => (n,f a)).foldl (fun b (n,v) => b.insert n v) b').find? name =
        ((pairs.foldl (fun b (n,v) => b.insert n v) b).find? name).map f := by
    induction pairs with
    | nil => exact fun _ _ h => h
    | cons p pairs ih =>
      refine fun b b' h => ih _ _ ?_
      rw [find?_insert,find?_insert]
      split
      · rfl
      · exact h
  exact hfold .empty .empty rfl

namespace Bindings.Alike

variable {b b' : Bindings Value}

theorem empty : (∅ : Bindings Value).Alike c h ∅ := ⟨fun _ => rfl,by simp⟩

theorem insert (hb : b.Alike c h b') (name : String) {v : Value} (hv : c.Knows h v) :
    (b.insert name v).Alike c h (b'.insert name (c.value v)) where
  same other := by
    rw [find?_insert,find?_insert]
    split
    · rfl
    · exact hb.same other
  knows other w hw := by
    rw [find?_insert] at hw
    split at hw
    · exact Option.some.inj hw ▸ hv
    · exact hb.knows other w hw

theorem mono {h₁ : Heap} (hb : b.Alike c h b') (hgrows : h.Grows h₁) : b.Alike c h₁ b' :=
  ⟨hb.same,fun name v hv => (hb.knows name v hv).mono hgrows⟩

theorem ofList (names : List String) {vs : List Value} (hvs : ∀ v ∈ vs, c.Knows h v) :
    (Bindings.ofList (names.zip vs)).Alike c h (Bindings.ofList (names.zip (vs.map c.value))) := by
  have hfold (names : List String) : ∀ (vs : List Value) {b b' : Bindings Value},
      (∀ v ∈ vs, c.Knows h v) → b.Alike c h b' →
      ((names.zip vs).foldl (fun b (name,v) => b.insert name v) b).Alike c h
        ((names.zip (vs.map c.value)).foldl (fun b (name,v) => b.insert name v) b') := by
    induction names with
    | nil => exact fun _ _ _ _ hb => hb
    | cons name names ih =>
      intro vs b b' hvs hb
      cases vs with
      | nil => exact hb
      | cons v vs =>
        exact ih vs (fun w hw => hvs w (List.mem_cons_of_mem _ hw)) (hb.insert name (hvs v List.mem_cons_self))
  exact hfold names vs hvs .empty

end Bindings.Alike

namespace Scope.Alike

variable {i : ScopeId} {s s' : Scope}

theorem mono {h₁ : Heap} (hs : s.Alike c h i s') (hgrows : h.Grows h₁) : s.Alike c h₁ i s' where
  enclosing := hs.enclosing
  bound name v hname hv := ⟨(hs.bound name v hname hv).1,(hs.bound name v hname hv).2.mono hgrows⟩
  unbound := hs.unbound

theorem insert (hs : s.Alike c h i s') (name : String) {v : Value} (hv : c.Knows h v) :
    Scope.Alike c h i { s with bindings := s.bindings.insert name v }
      { s' with bindings := s'.bindings.insert name (c.value v) } where
  enclosing := hs.enclosing
  bound other w hother hw := by
    simp only [Bindings.find?_insert] at hw ⊢
    split at hw
    next heq =>
      obtain rfl := Option.some.inj hw
      exact ⟨if_pos heq,hv⟩
    next hne => exact if_neg hne ▸ hs.bound other w hother hw
  unbound other hother hnone := by
    simp only [Bindings.find?_insert] at hnone ⊢
    split at hnone
    next => cases hnone
    next hne => exact if_neg hne ▸ hs.unbound other hother hnone

/-- A scope with nothing left over in it. -/
theorem of_bindings {b b' : Bindings Value} (hb : b.Alike c h b') (enclosing : Option ScopeId) :
    Scope.Alike c h i ⟨b,enclosing⟩ ⟨b',enclosing.map c.scope⟩ where
  enclosing := rfl
  bound name v _ hv := ⟨by rw [hb.same,hv]; rfl,hb.knows name v hv⟩
  unbound name _ hnone := .inl (by rw [hb.same,hnone]; rfl)

end Scope.Alike

theorem Instance.Alike.mono {h₁ : Heap} {o o' : Instance} (ho : o.Alike c h o') (hgrows : h.Grows h₁) :
    o.Alike c h₁ o' :=
  ⟨ho.ofClass,Nat.lt_of_lt_of_le ho.known hgrows.classes,ho.fields.mono hgrows⟩

theorem Heap.getInstance_setField {i : InstanceId} (hi : i.index < h.instances.size) (j : InstanceId)
    (name : String) (v : Value) : (h.setField i name v).getInstance j =
      if i = j then { h.getInstance j with fields := (h.getInstance j).fields.insert name v }
      else h.getInstance j := by
  obtain ⟨i⟩ := i
  obtain ⟨j⟩ := j
  simp only [getInstance,setField,Array.getElem?_modify,InstanceId.mk.injEq]
  by_cases hij : i = j
  · subst hij
    have hi : i < h.instances.size := hi
    simp [hi]
  · simp [hij]

namespace Heap.Alike

/-! ### Reading -/

theorem outward (hh : h.Alike c h') (distance left : Nat) (i : ScopeId) :
    h'.outward distance left (c.scope i) = (h.outward distance left i).map c.scope := by
  induction left generalizing i with
  | zero => rfl
  | succ left ih =>
    simp only [Heap.outward,(hh.scope i).enclosing]
    cases (h.getScope i).enclosing with
    | none => rfl
    | some e => exact ih e

/-- A name that is not bound may be left over only as long as there are such names. -/
theorem missing (hh : h.Alike c h') {i : ScopeId} {name : String} (hname : c.Visible name)
    (hcomplete : c.Complete h) (hnone : (h.getScope i).bindings.find? name = none) :
    (h'.getScope (c.scope i)).bindings.find? name = none := by
  refine ((hh.scope i).unbound name hname hnone).resolve_right ?_
  rintro ⟨rfl,hleft⟩
  have hbinds := hcomplete name hleft
  simp [Heap.Binds,Bindings.contains,hnone] at hbinds

theorem lookupAt_ok (hh : h.Alike c h') {i j : ScopeId} {distance : Nat} {name : String} {v : Value}
    (hname : c.Visible name) (hlookup : h.lookupAt i distance name = .ok (j,v)) :
    h'.lookupAt (c.scope i) distance name = .ok (c.scope j,c.value v) ∧ c.Knows h v := by
  simp only [Heap.lookupAt,Heap.ancestor,hh.outward] at hlookup ⊢
  cases hj : h.outward distance distance i with
  | error fault => simp [hj] at hlookup
  | ok k =>
    simp only [hj] at hlookup
    cases hv : (h.getScope k).bindings.find? name with
    | none => simp [hv] at hlookup
    | some w =>
      simp only [hv,Except.ok.injEq,Prod.mk.injEq] at hlookup
      obtain ⟨rfl,rfl⟩ := hlookup
      obtain ⟨hw,hknows⟩ := (hh.scope k).bound name w hname hv
      simp only [Except.map,hw]
      exact ⟨trivial,hknows⟩

theorem lookupAt_error (hh : h.Alike c h') {i : ScopeId} {distance : Nat} {name : String}
    {fault : InternalFault} (hname : c.Visible name) (hcomplete : c.Complete h)
    (hlookup : h.lookupAt i distance name = .error fault) :
    h'.lookupAt (c.scope i) distance name = .error fault := by
  simp only [Heap.lookupAt,Heap.ancestor,hh.outward] at hlookup ⊢
  cases hj : h.outward distance distance i with
  | error fault' =>
    simp only [hj] at hlookup
    exact hlookup
  | ok k =>
    simp only [hj] at hlookup
    cases hv : (h.getScope k).bindings.find? name with
    | some w => simp [hv] at hlookup
    | none =>
      simp only [hv,Except.error.injEq] at hlookup
      simp only [Except.map,hh.missing hname hcomplete hv,hlookup]

/-- Only the global scope itself is searched for a global name. -/
theorem lookup?_globals {h : Heap} (hroot : 0 < h.scopes.size)
    (houtermost : (h.getScope globals).enclosing = none) (name : String) :
    h.lookup? name h.scopes.size globals =
      ((h.getScope globals).bindings.find? name).map (globals,·) := by
  obtain ⟨n,hn⟩ := Nat.exists_eq_succ_of_ne_zero (Nat.ne_of_gt hroot)
  rw [hn]
  simp only [Heap.lookup?,houtermost]
  cases (h.getScope globals).bindings.find? name <;> rfl

theorem lookup?_globals_left (hh : h.Alike c h') (name : String) :
    h.lookup? name h.scopes.size globals =
      ((h.getScope globals).bindings.find? name).map (globals,·) :=
  lookup?_globals hh.root hh.outermost name

theorem lookup?_globals_right (hh : h.Alike c h') (name : String) :
    h'.lookup? name h'.scopes.size globals =
      ((h'.getScope globals).bindings.find? name).map (globals,·) := by
  have henclosing := (hh.scope globals).enclosing
  rw [hh.outermost] at henclosing
  refine lookup?_globals ?_ henclosing name
  rw [hh.scopes]
  exact Nat.add_pos_left hh.root _

theorem lookup?_some (hh : h.Alike c h') {j : ScopeId} {name : String} {v : Value} (hname : c.Visible name)
    (hlookup : h.lookup? name h.scopes.size globals = some (j,v)) :
    h'.lookup? name h'.scopes.size globals = some (c.scope j,c.value v) ∧ c.Knows h v := by
  rw [hh.lookup?_globals_left,Option.map_eq_some_iff] at hlookup
  obtain ⟨w,hw,heq⟩ := hlookup
  obtain ⟨rfl,rfl⟩ := Prod.mk.inj heq
  obtain ⟨hw',hknows⟩ := (hh.scope globals).bound name w hname hw
  rw [Correspondence.scope_globals] at hw'
  rw [hh.lookup?_globals_right,hw']
  exact ⟨rfl,hknows⟩

theorem lookup?_none (hh : h.Alike c h') {name : String} (hname : c.Visible name) (hcomplete : c.Complete h)
    (hlookup : h.lookup? name h.scopes.size globals = none) :
    h'.lookup? name h'.scopes.size globals = none := by
  rw [hh.lookup?_globals_left,Option.map_eq_none_iff] at hlookup
  have hnone := hh.missing (i := globals) hname hcomplete hlookup
  rw [Correspondence.scope_globals] at hnone
  rw [hh.lookup?_globals_right,hnone]
  rfl

/-- The search for a method goes up the same classes, since a superclass stands in front of its subclasses
in the table. -/
theorem searchMethod (hh : h.Alike c h') (name : String) {fuel fuel' : Nat} {k : ClassId}
    (hk : k.index < fuel) (hk' : (c.class k).index < fuel') :
    h'.searchMethod name fuel' (c.class k) = (h.searchMethod name fuel k).map c.function := by
  induction fuel generalizing fuel' k with
  | zero => exact absurd hk (Nat.not_lt_zero _)
  | succ fuel ih =>
    obtain ⟨fuel',rfl⟩ := Nat.exists_eq_succ_of_ne_zero (Nat.ne_of_gt (Nat.zero_lt_of_lt hk'))
    have hclass := hh.class k
    simp only [Heap.searchMethod,hclass.methods,hclass.superclass]
    cases (h.getClass k).methods.find? name with
    | some f => rfl
    | none =>
      cases hparent : (h.getClass k).superclass with
      | none => rfl
      | some p =>
        have hp := hh.superclass k p hparent
        refine ih (Nat.lt_of_lt_of_le hp (Nat.le_of_lt_succ hk)) ?_
        simp only [Correspondence.class] at hk' ⊢
        omega

theorem findMethod? (hh : h.Alike c h') {k : ClassId} (hk : k.index < h.classes.size) (name : String) :
    h'.findMethod? (c.class k) name = (h.findMethod? k name).map c.function := by
  refine hh.searchMethod name hk ?_
  rw [hh.classes]
  exact Nat.add_lt_add_right hk _

theorem property? (hh : h.Alike c h') {i : InstanceId} (hi : i.index < h.instances.size) (name : String) :
    h'.property? (c.instance i) name = (h.property? i name).map c.property := by
  have hinstance := hh.instance i hi
  simp only [Heap.property?,hinstance.fields.same,hinstance.ofClass]
  cases (h.getInstance i).fields.find? name with
  | some v => rfl
  | none =>
    simp only [Option.map_none,hh.findMethod? hinstance.known,Option.map_map]
    rfl

theorem property?_field (hh : h.Alike c h') {i : InstanceId} {name : String} {v : Value}
    (hi : i.index < h.instances.size) (hv : h.property? i name = some (.field v)) : c.Knows h v := by
  simp only [Heap.property?] at hv
  split at hv
  next w hw =>
    obtain rfl := Property.field.inj (Option.some.inj hv)
    exact (hh.instance i hi).fields.knows name w hw
  next =>
    obtain ⟨f,-,hf⟩ := Option.map_eq_some_iff.mp hv
    cases hf

theorem function_name (hh : h.Alike c h') (f : FunctionId) :
    (h'.getFunction (c.function f)).name = (h.getFunction f).name :=
  c.like.lexeme (hh.function f).declaration.name

theorem function_arity (hh : h.Alike c h') (f : FunctionId) :
    (h'.getFunction (c.function f)).arity = (h.getFunction f).arity :=
  (hh.function f).declaration.parameters.length_eq.symm

theorem display (hh : h.Alike c h') {v : Value} (hv : c.Knows h v) :
    h'.display (c.value v) = h.display v := by
  cases v with
  | function f => simp only [Correspondence.value,Heap.display,hh.function_name]
  | «class» k => simp only [Correspondence.value,Heap.display,(hh.class k).name]
  | «instance» i => simp only [Correspondence.value,Heap.display,(hh.instance i hv).ofClass,(hh.class _).name]
  | _ => rfl

theorem classArity (hh : h.Alike c h') {k : ClassId} (hk : k.index < h.classes.size) :
    h'.classArity (c.class k) = h.classArity k := by
  simp only [Heap.classArity,hh.findMethod? hk]
  cases h.findMethod? k "init" with
  | none => rfl
  | some f => exact hh.function_arity f

theorem callable? (hh : h.Alike c h') {v : Value} (hv : c.Knows h v) :
    h'.callable? (c.value v) = h.callable? v := by
  cases v with
  | function f => simp only [Correspondence.value,Heap.callable?,hh.function_name,hh.function_arity]
  | «class» k => simp only [Correspondence.value,Heap.callable?,(hh.class k).name,hh.classArity hv]
  | _ => rfl

/-! ### Writing -/

theorem define (hh : h.Alike c h') (i : ScopeId) (name : String) {v : Value} (hv : c.Knows h v) :
    (h.define i name v).Alike c (h'.define (c.scope i) name (c.value v)) := by
  have hgrows := Grows.define h i name v
  have hrange : (c.scope i).index < h'.scopes.size ↔ i.index < h.scopes.size := by
    have hroot := hh.root
    rw [hh.scopes,Correspondence.scope]
    split
    next hglobal => simp only [hglobal,globals,hroot,Nat.add_pos_left]
    next => exact Nat.add_lt_add_iff_right
  have hscope (j : ScopeId) : (c.scope i = c.scope j ∧ (c.scope i).index < h'.scopes.size) ↔
      (i = j ∧ i.index < h.scopes.size) := by
    rw [hrange]
    exact and_congr_left fun _ => ⟨c.scope_injective,congrArg c.scope⟩
  refine { hh with
    scopes := by rw [define_size,define_size,hh.scopes]
    root := by rw [define_size]; exact hh.root
    outermost := ?_
    scope := fun j => ?_
    function := hh.function
    «class» := hh.class
    «instance» := fun j hj => (hh.instance j hj).mono hgrows }
  · rw [getScope_define]
    split
    · exact hh.outermost
    · exact hh.outermost
  · rw [getScope_define,getScope_define]
    by_cases hj : i = j ∧ i.index < h.scopes.size
    · rw [if_pos hj,if_pos ((hscope j).mpr hj)]
      exact ((hh.scope j).insert name hv).mono hgrows
    · rw [if_neg hj,if_neg (mt (hscope j).mp hj)]
      exact (hh.scope j).mono hgrows

theorem addScope (hh : h.Alike c h') {b b' : Bindings Value} (hb : b.Alike c h b')
    (enclosing : Option ScopeId) :
    (h.addScope ⟨b,enclosing⟩).2.Alike c (h'.addScope ⟨b',enclosing.map c.scope⟩).2 := by
  have hgrows := Grows.addScope h ⟨b,enclosing⟩
  have hroot := hh.root
  refine { hh with
    scopes := ?_
    root := ?_
    outermost := ?_
    scope := fun j => ?_
    function := hh.function
    «class» := hh.class
    «instance» := fun j hj => (hh.instance j hj).mono hgrows }
  · simp only [Heap.addScope,Array.size_push,hh.scopes]
    omega
  · simp only [Heap.addScope,Array.size_push]
    omega
  · have hne : globals.index ≠ h.scopes.size := Nat.ne_of_lt hroot
    rw [getScope_addScope,if_neg hne]
    exact hh.outermost
  · have hnew : (c.scope j).index = h'.scopes.size ↔ j.index = h.scopes.size := by
      rw [hh.scopes,Correspondence.scope]
      split
      next hglobal =>
        simp only [hglobal,globals]
        omega
      next => exact Nat.add_right_cancel_iff
    rw [getScope_addScope,getScope_addScope]
    by_cases hj : j.index = h.scopes.size
    · rw [if_pos hj,if_pos (hnew.mpr hj)]
      exact (Scope.Alike.of_bindings hb enclosing).mono hgrows
    · rw [if_neg hj,if_neg (mt hnew.mp hj)]
      exact (hh.scope j).mono hgrows

theorem addFunction (hh : h.Alike c h') {f f' : Function} (hf : f.Alike c f') :
    (h.addFunction f).2.Alike c (h'.addFunction f').2 := by
  have hgrows := Grows.addFunction h f
  refine { hh with
    functions := ?_
    scope := fun j => (hh.scope j).mono hgrows
    function := fun g => ?_
    «class» := hh.class
    «instance» := fun j hj => (hh.instance j hj).mono hgrows }
  · simp only [Heap.addFunction,Array.size_push,hh.functions]
    omega
  · have hnew : (c.function g).index = h'.functions.size ↔ g.index = h.functions.size := by
      rw [hh.functions]
      exact Nat.add_right_cancel_iff
    rw [getFunction_addFunction,getFunction_addFunction]
    by_cases hg : g.index = h.functions.size
    · rw [if_pos hg,if_pos (hnew.mpr hg)]
      exact hf
    · rw [if_neg hg,if_neg (mt hnew.mp hg)]
      exact hh.function g

theorem addClass (hh : h.Alike c h') {k k' : Class} (hk : k.Alike c k')
    (hparent : ∀ p, k.superclass = some p → p.index < h.classes.size) :
    (h.addClass k).2.Alike c (h'.addClass k').2 := by
  have hgrows := Grows.addClass h k
  have hnew (p : ClassId) : (c.class p).index = h'.classes.size ↔ p.index = h.classes.size := by
    rw [hh.classes]
    exact Nat.add_right_cancel_iff
  refine { hh with
    classes := ?_
    scope := fun j => (hh.scope j).mono hgrows
    function := hh.function
    «class» := fun p => ?_
    superclass := fun p q hq => ?_
    «instance» := fun j hj => (hh.instance j hj).mono hgrows }
  · simp only [Heap.addClass,Array.size_push,hh.classes]
    omega
  · rw [getClass_addClass,getClass_addClass]
    by_cases hp : p.index = h.classes.size
    · rw [if_pos hp,if_pos ((hnew p).mpr hp)]
      exact hk
    · rw [if_neg hp,if_neg (mt (hnew p).mp hp)]
      exact hh.class p
  · rw [getClass_addClass] at hq
    split at hq
    next hp => exact hp ▸ hparent q hq
    next => exact hh.superclass p q hq

theorem addInstance (hh : h.Alike c h') {o o' : Instance} (ho : o.Alike c h o') :
    (h.addInstance o).2.Alike c (h'.addInstance o').2 := by
  have hgrows := Grows.addInstance h o
  refine { hh with
    instances := ?_
    scope := fun j => (hh.scope j).mono hgrows
    function := hh.function
    «class» := hh.class
    «instance» := fun j hj => ?_ }
  · simp only [Heap.addInstance,Array.size_push,hh.instances]
    omega
  · have hnew : (c.instance j).index = h'.instances.size ↔ j.index = h.instances.size := by
      rw [hh.instances]
      exact Nat.add_right_cancel_iff
    rw [getInstance_addInstance,getInstance_addInstance]
    by_cases heq : j.index = h.instances.size
    · rw [if_pos heq,if_pos (hnew.mpr heq)]
      exact ho.mono hgrows
    · rw [if_neg heq,if_neg (mt hnew.mp heq)]
      simp only [Heap.addInstance,Array.size_push] at hj
      exact (hh.instance j (by omega)).mono hgrows

theorem setField (hh : h.Alike c h') {i : InstanceId} (hi : i.index < h.instances.size) (name : String)
    {v : Value} (hv : c.Knows h v) :
    (h.setField i name v).Alike c (h'.setField (c.instance i) name (c.value v)) := by
  have hgrows := Grows.setField h i name v
  refine { hh with
    instances := by simp [Heap.setField,hh.instances]
    scope := fun j => (hh.scope j).mono hgrows
    function := hh.function
    «class» := hh.class
    «instance» := fun j hj => ?_ }
  have hj : j.index < h.instances.size := by simpa [Heap.setField] using hj
  have hold := hh.instance j hj
  rw [getInstance_setField hi,getInstance_setField (by rw [hh.instances]; exact Nat.add_lt_add_right hi _)]
  by_cases hij : i = j
  · rw [if_pos hij,if_pos (congrArg c.instance hij)]
    exact Instance.Alike.mono ⟨hold.ofClass,hold.known,hold.fields.insert name hv⟩ hgrows
  · rw [if_neg hij,if_neg (mt c.instance_inj.mp hij)]
    exact hold.mono hgrows

/-! ### New objects -/

theorem new_scope (hh : h.Alike c h') : (⟨h'.scopes.size⟩ : ScopeId) = c.scope ⟨h.scopes.size⟩ := by
  rw [hh.scopes,c.scope_new hh.root]

theorem new_function (hh : h.Alike c h') :
    (⟨h'.functions.size⟩ : FunctionId) = c.function ⟨h.functions.size⟩ := by
  rw [hh.functions,Correspondence.function]

theorem new_class (hh : h.Alike c h') : (⟨h'.classes.size⟩ : ClassId) = c.class ⟨h.classes.size⟩ := by
  rw [hh.classes,Correspondence.class]

theorem new_instance (hh : h.Alike c h') :
    (⟨h'.instances.size⟩ : InstanceId) = c.instance ⟨h.instances.size⟩ := by
  rw [hh.instances,Correspondence.instance]

theorem bind (hh : h.Alike c h') {i : InstanceId} (hi : i.index < h.instances.size) (f : FunctionId) :
    (h.bind f i).2.Alike c (h'.bind (c.function f) (c.instance i)).2 := by
  have hmethod := hh.function f
  have hthis : ((∅ : Bindings Value).insert "this" (.instance i)).Alike c h
      ((∅ : Bindings Value).insert "this" (.instance (c.instance i))) :=
    Bindings.Alike.empty.insert "this" (v := .instance i) hi
  have hscope := hh.addScope hthis (some (h.getFunction f).closure)
  simp only [Heap.bind,hmethod.closure]
  exact hscope.addFunction ⟨hmethod.declaration,hh.new_scope,hmethod.isInitializer⟩

end Heap.Alike

end Lox

import Lox.Proofs.Alike.Heap
import Lox.Proofs.Renaming.Scoping

/-! Heaps with the same objects, in which some scopes have a variable under another name. -/
namespace Lox

namespace Heap

variable {h h' : Heap} {i j : ScopeId} {d : Nat}

/-- How far it was to go in all makes a difference only to the message. -/
theorem outward_ok_iff (n n' : Nat) : h.outward n d i = .ok j ↔ h.outward n' d i = .ok j := by
  induction d generalizing i with
  | zero => exact Iff.rfl
  | succ d ih =>
    simp only [outward]
    cases (h.getScope i).enclosing with
    | none => simp
    | some e => exact ih

theorem ancestor_succ_ok : h.ancestor i (d + 1) = .ok j ↔
    ∃ e, (h.getScope i).enclosing = some e ∧ h.ancestor e d = .ok j := by
  simp only [ancestor,outward]
  cases (h.getScope i).enclosing with
  | none => simp
  | some e =>
    simp only [Option.some.injEq,exists_eq_left']
    exact outward_ok_iff _ _

theorem outward_congr (h' : Heap) (henclosing : ∀ i, (h'.getScope i).enclosing = (h.getScope i).enclosing)
    (n : Nat) : h'.outward n d i = h.outward n d i := by
  induction d generalizing i with
  | zero => rfl
  | succ d ih =>
    simp only [outward,henclosing i]
    cases (h.getScope i).enclosing with
    | none => rfl
    | some e => exact ih

/-- Scopes are enclosed by scopes that exist. -/
def Linked (h : Heap) : Prop := ∀ i e, (h.getScope i).enclosing = some e → e.index < h.scopes.size

theorem Linked.ancestor (hlinked : h.Linked) (hi : i.index < h.scopes.size) (hj : h.ancestor i d = .ok j) :
    j.index < h.scopes.size := by
  induction d generalizing i with
  | zero => exact Except.ok.inj hj ▸ hi
  | succ d ih =>
    obtain ⟨e,he,hj⟩ := ancestor_succ_ok.mp hj
    exact ih (hlinked i e he) hj

/-- The chain from a scope outward never changes. -/
theorem Linked.ancestor_extends (hlinked : h.Linked) (hh : h.Extends h') (hi : i.index < h.scopes.size) :
    h'.ancestor i d = .ok j ↔ h.ancestor i d = .ok j := by
  induction d generalizing i with
  | zero => exact Iff.rfl
  | succ d ih =>
    rw [ancestor_succ_ok,ancestor_succ_ok,hh.enclosing i hi]
    exact exists_congr fun e => and_congr_right fun he => ih (hlinked i e he)

theorem toOption_map {ε α β : Type} (r : Except ε α) (f : α → β) : (r.map f).toOption = r.toOption.map f := by
  cases r <;> rfl

end Heap

/-- Two heaps, and which scopes have the variable under its new name in the second one. -/
structure HeapPair where
  renamed : ScopeId → Bool
  left : Heap
  right : Heap

namespace HeapPair

/-- The marks of the scopes from one outward. -/
def Follows (p : HeapPair) (i : ScopeId) (flags : List Bool) : Prop :=
  ∀ d j, p.left.ancestor i d = .ok j → p.renamed j = flags.getD d false

/-- A function that is called in the given scopes, inside those that it closes over. -/
structure Closes (ρ : Renaming) (p : HeapPair) (inner : List Bool) (f : FunctionId) : Prop where
  known : f.index < p.left.functions.size
  closure : (p.right.getFunction f).closure = (p.left.getFunction f).closure
  isInitializer : (p.right.getFunction f).isInitializer = (p.left.getFunction f).isInitializer
  inRange : (p.left.getFunction f).closure.index < p.left.scopes.size
  declaration : ∃ flags, p.Follows (p.left.getFunction f).closure flags ∧
    Stmt.FunctionRenamed ρ (inner ++ flags) (p.left.getFunction f).declaration (p.right.getFunction f).declaration

/-- A value of both machines. If it is a function, it can be called. -/
def Knows (ρ : Renaming) (p : HeapPair) : Value → Prop
  | .function f => p.Closes ρ [] f
  | _ => True

/-- The objects are the same but for the name of the variable. A method is called in the scope of its
receiver. -/
structure Sound (ρ : Renaming) (p : HeapPair) : Prop where
  scopes : p.right.scopes.size = p.left.scopes.size
  functions : p.right.functions.size = p.left.functions.size
  classes : p.right.classes = p.left.classes
  instances : p.right.instances = p.left.instances
  root : 0 < p.left.scopes.size
  outermost : (p.left.getScope Heap.globals).enclosing = none
  unmarked : p.renamed Heap.globals = false
  linked : p.left.Linked
  enclosing : ∀ i, (p.right.getScope i).enclosing = (p.left.getScope i).enclosing
  bindings : ∀ i, (p.left.getScope i).bindings.Renamed ρ (p.renamed i) (p.right.getScope i).bindings
  bound : ∀ i name v, (p.left.getScope i).bindings.find? name = some v → p.Knows ρ v
  field : ∀ i name v, (p.left.getInstance i).fields.find? name = some v → p.Knows ρ v
  method : ∀ k name f, (p.left.getClass k).methods.find? name = some f → p.Closes ρ [false] f

/-- Objects have been added, and scopes keep their names and their marks. -/
structure Grows (p q : HeapPair) : Prop where
  left : p.left.Extends q.left
  right : p.right.Extends q.right
  renamed : ∀ j : ScopeId, j.index < p.left.scopes.size → q.renamed j = p.renamed j

variable {ρ : Renaming} {p q r : HeapPair} {i j : ScopeId} {flags inner : List Bool} {flag : Bool} {x x' : String}
  {v : Value} {f : FunctionId}

/-! ### Growth -/

theorem Grows.refl (p : HeapPair) : p.Grows p := ⟨.refl _,.refl _,fun _ _ => rfl⟩

theorem Grows.trans (h : p.Grows q) (h' : q.Grows r) : p.Grows r where
  left := h.left.trans h'.left
  right := h.right.trans h'.right
  renamed j hj := (h'.renamed j (Nat.lt_of_lt_of_le hj h.left.scopes)).trans (h.renamed j hj)

theorem Follows.here (h : p.Follows i flags) : p.renamed i = flags.headD false := by
  rw [h 0 i rfl]
  cases flags <;> rfl

/-- At top level no scope is marked. -/
theorem Follows.globals (h : p.Sound ρ) : p.Follows Heap.globals [] := by
  intro d j hj
  cases d with
  | zero => exact Except.ok.inj hj ▸ h.unmarked
  | succ d =>
    obtain ⟨e,he,-⟩ := Heap.ancestor_succ_ok.mp hj
    rw [h.outermost] at he
    cases he

theorem Follows.mono (h : p.Follows i flags) (hlinked : p.left.Linked) (hi : i.index < p.left.scopes.size)
    (hgrows : p.Grows q) : q.Follows i flags := by
  intro d j hj
  have hj' := (hlinked.ancestor_extends hgrows.left hi).mp hj
  exact (hgrows.renamed j (hlinked.ancestor hi hj')).trans (h d j hj')

theorem Closes.mono (h : p.Closes ρ inner f) (hp : p.Sound ρ) (hgrows : p.Grows q) : q.Closes ρ inner f := by
  have hleft := hgrows.left.function f h.known
  have hright := hgrows.right.function f (hp.functions ▸ h.known)
  obtain ⟨flags,hfollows,hdeclaration⟩ := h.declaration
  refine ⟨Nat.lt_of_lt_of_le h.known hgrows.left.functions,?_,?_,?_,flags,?_,?_⟩
  · rw [hleft,hright]
    exact h.closure
  · rw [hleft,hright]
    exact h.isInitializer
  · rw [hleft]
    exact Nat.lt_of_lt_of_le h.inRange hgrows.left.scopes
  · rw [hleft]
    exact hfollows.mono hp.linked h.inRange hgrows
  · rw [hleft,hright]
    exact hdeclaration

theorem Knows.mono (h : p.Knows ρ v) (hp : p.Sound ρ) (hgrows : p.Grows q) : q.Knows ρ v := by
  cases v with
  | function f => exact Closes.mono h hp hgrows
  | _ => trivial

/-! ### Elementary steps -/

/-- A name is bound in both heaps. -/
def define (p : HeapPair) (i : ScopeId) (x x' : String) (v : Value) : HeapPair :=
  ⟨p.renamed,p.left.define i x v,p.right.define i x' v⟩

/-- A new scope, that may be marked. -/
def addScope (p : HeapPair) (flag : Bool) (s s' : Scope) : HeapPair :=
  ⟨fun j => if j.index = p.left.scopes.size then flag else p.renamed j,(p.left.addScope s).2,
    (p.right.addScope s').2⟩

def addFunction (p : HeapPair) (f f' : Function) : HeapPair :=
  ⟨p.renamed,(p.left.addFunction f).2,(p.right.addFunction f').2⟩

/-- The heaps after a method has been bound. The scope of the receiver is not marked. -/
def bind (p : HeapPair) (f : FunctionId) (receiver : InstanceId) : HeapPair :=
  ⟨(p.addScope false default default).renamed,(p.left.bind f receiver).2,(p.right.bind f receiver).2⟩

/-- The same change to both heaps. -/
def change (p : HeapPair) (g : Heap → Heap) : HeapPair := ⟨p.renamed,g p.left,g p.right⟩

theorem Grows.define (p : HeapPair) (i : ScopeId) (x x' : String) (v : Value) : p.Grows (p.define i x x' v) :=
  ⟨.define _ _ _ _,.define _ _ _ _,fun _ _ => rfl⟩

theorem Grows.addScope (p : HeapPair) (flag : Bool) (s s' : Scope) : p.Grows (p.addScope flag s s') :=
  ⟨.addScope _ _,.addScope _ _,fun _ hj => if_neg (Nat.ne_of_lt hj)⟩

theorem Grows.addFunction (p : HeapPair) (f f' : Function) : p.Grows (p.addFunction f f') :=
  ⟨.addFunction _ _,.addFunction _ _,fun _ _ => rfl⟩

theorem Grows.addClass (p : HeapPair) (k : Class) : p.Grows (p.change fun h => (h.addClass k).2) :=
  ⟨.of_eq rfl rfl,.of_eq rfl rfl,fun _ _ => rfl⟩

theorem Grows.addInstance (p : HeapPair) (o : Instance) : p.Grows (p.change fun h => (h.addInstance o).2) :=
  ⟨.of_eq rfl rfl,.of_eq rfl rfl,fun _ _ => rfl⟩

theorem Grows.setField (p : HeapPair) (i : InstanceId) (x : String) (v : Value) :
    p.Grows (p.change (·.setField i x v)) :=
  ⟨.of_eq rfl rfl,.of_eq rfl rfl,fun _ _ => rfl⟩

theorem Closes.name (h : p.Closes ρ inner f) :
    (p.right.getFunction f).name = (p.left.getFunction f).name := by
  obtain ⟨_,-,hdeclaration⟩ := h.declaration
  exact congrArg Token.lexeme hdeclaration.name

theorem Closes.arity (h : p.Closes ρ inner f) :
    (p.right.getFunction f).arity = (p.left.getFunction f).arity := by
  obtain ⟨_,-,hdeclaration⟩ := h.declaration
  exact hdeclaration.arity

namespace Sound

variable (h : p.Sound ρ)
include h

theorem define (hx' : x' = ρ.name (p.renamed i) x) (hx : p.renamed i = true → x ≠ ρ.new)
    (hv : (p.define i x x' v).Knows ρ v) : (p.define i x x' v).Sound ρ := by
  have hgrows := Grows.define p i x x' v
  have henclosing (h : Heap) (x : String) (j : ScopeId) :
      ((h.define i x v).getScope j).enclosing = (h.getScope j).enclosing := by
    rw [Heap.getScope_define]
    split <;> rfl
  refine { h with
    scopes := by simp [HeapPair.define,h.scopes]
    root := by simp [HeapPair.define,h.root]
    outermost := (henclosing _ _ _).trans h.outermost
    linked := fun j e he => ?_
    enclosing := fun j => (henclosing _ _ _).trans ((h.enclosing j).trans (henclosing _ _ _).symm)
    bindings := fun j => ?_
    bound := fun j y w hw => ?_
    field := fun j y w hw => (h.field j y w hw).mono h hgrows
    method := fun k y f hf => (h.method k y f hf).mono h hgrows }
  · exact Nat.lt_of_lt_of_le (h.linked j e ((henclosing _ _ _).symm.trans he)) hgrows.left.scopes
  · simp only [HeapPair.define,Heap.getScope_define,h.scopes]
    split
    next hij =>
      obtain ⟨rfl,-⟩ := hij
      exact hx' ▸ (h.bindings i).insert hx v
    next => exact h.bindings j
  · simp only [HeapPair.define,Heap.getScope_define] at hw
    split at hw
    next =>
      rw [Bindings.find?_insert] at hw
      split at hw
      next => exact Option.some.inj hw ▸ hv
      next => exact (h.bound j y w hw).mono h hgrows
    next => exact (h.bound j y w hw).mono h hgrows

theorem addScope {s s' : Scope} (henclosing : s'.enclosing = s.enclosing)
    (hlinked : ∀ e, s.enclosing = some e → e.index < p.left.scopes.size)
    (hbindings : s.bindings.Renamed ρ flag s'.bindings)
    (hbound : ∀ x v, s.bindings.find? x = some v → p.Knows ρ v) : (p.addScope flag s s').Sound ρ := by
  have hgrows := Grows.addScope p flag s s'
  have hroot : Heap.globals.index ≠ p.left.scopes.size := Nat.ne_of_lt h.root
  refine { h with
    scopes := by simp [HeapPair.addScope,Heap.addScope,h.scopes]
    root := Nat.lt_of_lt_of_le h.root hgrows.left.scopes
    outermost := by simp only [HeapPair.addScope,Heap.getScope_addScope,if_neg hroot,h.outermost]
    unmarked := (if_neg hroot).trans h.unmarked
    linked := fun j e he => ?_
    enclosing := fun j => ?_
    bindings := fun j => ?_
    bound := fun j y w hw => ?_
    field := fun j y w hw => (h.field j y w hw).mono h hgrows
    method := fun k y f hf => (h.method k y f hf).mono h hgrows }
  · simp only [HeapPair.addScope,Heap.getScope_addScope] at he
    refine Nat.lt_of_lt_of_le ?_ hgrows.left.scopes
    split at he
    · exact hlinked e he
    · exact h.linked j e he
  · simp only [HeapPair.addScope,Heap.getScope_addScope,h.scopes]
    split
    · exact henclosing
    · exact h.enclosing j
  · simp only [HeapPair.addScope,Heap.getScope_addScope,h.scopes]
    split
    · exact hbindings
    · exact h.bindings j
  · simp only [HeapPair.addScope,Heap.getScope_addScope] at hw
    split at hw
    · exact (hbound y w hw).mono h hgrows
    · exact (h.bound j y w hw).mono h hgrows

/-- A new scope with one name that is not renamed. -/
theorem addSingle {e e' : ScopeId} (hsame : e' = e) (he : e.index < p.left.scopes.size) (hv : p.Knows ρ v)
    (x : String) :
    (p.addScope false ⟨(∅ : Bindings Value).insert x v,some e⟩ ⟨(∅ : Bindings Value).insert x v,some e'⟩).Sound ρ := by
  refine h.addScope (congrArg some hsame) (fun k hk => Option.some.inj hk ▸ he) (.refl _) fun y w hw => ?_
  rw [Bindings.find?_insert] at hw
  split at hw
  · exact Option.some.inj hw ▸ hv
  · simp at hw

theorem addFunction (f f' : Function) : (p.addFunction f f').Sound ρ := by
  have hgrows := Grows.addFunction p f f'
  exact { h with
    functions := by simp [HeapPair.addFunction,Heap.addFunction,h.functions]
    bound := fun j y w hw => (h.bound j y w hw).mono h hgrows
    field := fun j y w hw => (h.field j y w hw).mono h hgrows
    method := fun k y g hg => (h.method k y g hg).mono h hgrows }

theorem addClass {k : Class} (hk : ∀ x f, k.methods.find? x = some f → p.Closes ρ [false] f) :
    (p.change fun h => (h.addClass k).2).Sound ρ := by
  have hgrows := Grows.addClass p k
  exact { h with
    classes := congrArg (·.push k) h.classes
    bound := fun j y w hw => (h.bound j y w hw).mono h hgrows
    field := fun j y w hw => (h.field j y w hw).mono h hgrows
    method := fun c y f hf => by
      rw [HeapPair.change,Heap.getClass_addClass] at hf
      split at hf
      · exact (hk y f hf).mono h hgrows
      · exact (h.method c y f hf).mono h hgrows }

theorem addInstance (k : ClassId) : (p.change fun h => (h.addInstance ⟨k,∅⟩).2).Sound ρ := by
  have hgrows := Grows.addInstance p ⟨k,∅⟩
  exact { h with
    instances := by simp only [HeapPair.change,Heap.addInstance,h.instances]
    bound := fun j y w hw => (h.bound j y w hw).mono h hgrows
    field := fun j y w hw => by
      rw [HeapPair.change,Heap.getInstance_addInstance] at hw
      split at hw
      · simp at hw
      · exact (h.field j y w hw).mono h hgrows
    method := fun c y f hf => (h.method c y f hf).mono h hgrows }

theorem setField (hv : p.Knows ρ v) (i : InstanceId) (x : String) :
    (p.change (·.setField i x v)).Sound ρ := by
  have hgrows := Grows.setField p i x v
  exact { h with
    instances := by simp only [HeapPair.change,Heap.setField,h.instances]
    bound := fun j y w hw => (h.bound j y w hw).mono h hgrows
    field := fun j y w hw => by
      rcases Heap.find?_setField hw with rfl | hw
      · exact hv.mono h hgrows
      · exact (h.field j y w hw).mono h hgrows
    method := fun c y f hf => (h.method c y f hf).mono h hgrows }

/-! ### Reading -/

theorem ancestor (d : Nat) (i : ScopeId) : p.right.ancestor i d = p.left.ancestor i d :=
  Heap.outward_congr p.right h.enclosing d

/-- A name is found in the scope at a distance under the name that it has there. -/
theorem lookupAt (hfollows : p.Follows i flags) (d : Nat) (hx : flags.getD d false = true → x ≠ ρ.new) :
    (p.right.lookupAt i d (ρ.name (flags.getD d false) x)).toOption = (p.left.lookupAt i d x).toOption := by
  simp only [Heap.lookupAt,h.ancestor]
  cases hj : p.left.ancestor i d with
  | error fault => rfl
  | ok j =>
    have hmark := hfollows d j hj
    have hfind := h.bindings j x (hmark ▸ hx)
    rw [hmark] at hfind
    simp only [hfind]
    cases (p.left.getScope j).bindings.find? x <;> rfl

theorem lookupAt_ok (hfollows : p.Follows i flags) {d : Nat} (hlookup : p.left.lookupAt i d x = .ok (j,v)) :
    p.renamed j = flags.getD d false ∧ p.Knows ρ v := by
  simp only [Heap.lookupAt] at hlookup
  cases hj : p.left.ancestor i d with
  | error fault => simp [hj] at hlookup
  | ok k =>
    simp only [hj] at hlookup
    cases hw : (p.left.getScope k).bindings.find? x with
    | none => simp [hw] at hlookup
    | some w =>
      simp only [hw,Except.ok.injEq,Prod.mk.injEq] at hlookup
      obtain ⟨rfl,rfl⟩ := hlookup
      exact ⟨hfollows d k hj,h.bound k x w hw⟩

/-- What programs cannot declare has the same name everywhere. -/
theorem getAt_keyword (hfollows : p.Follows i flags) (d : Nat) (hx : x ≠ ρ.old ∧ x ≠ ρ.new) :
    (p.right.getAt i d x).toOption = (p.left.getAt i d x).toOption := by
  have hlookup := h.lookupAt hfollows d fun _ => hx.2
  rw [Renaming.name_of_ne hx.1] at hlookup
  rw [Heap.getAt,Heap.getAt,Heap.toOption_map,Heap.toOption_map,hlookup]

theorem getAt_ok (hfollows : p.Follows i flags) {d : Nat} (hv : p.left.getAt i d x = .ok v) : p.Knows ρ v := by
  rw [Heap.getAt] at hv
  cases hlookup : p.left.lookupAt i d x with
  | error fault => simp [hlookup,Except.map] at hv
  | ok found =>
    rw [hlookup] at hv
    exact Except.ok.inj hv ▸ (h.lookupAt_ok hfollows hlookup).2

/-- Only the global scope itself is searched for a global name. -/
theorem lookup?_globals (x : String) : p.right.lookup? x p.right.scopes.size Heap.globals =
    p.left.lookup? x p.left.scopes.size Heap.globals := by
  have hright : (p.right.getScope Heap.globals).enclosing = none := (h.enclosing _).trans h.outermost
  have hfind : (p.right.getScope Heap.globals).bindings.find? x =
      (p.left.getScope Heap.globals).bindings.find? x := by
    have hbindings := h.bindings Heap.globals
    rw [h.unmarked] at hbindings
    exact hbindings x (by simp)
  rw [Heap.Alike.lookup?_globals h.root h.outermost,Heap.Alike.lookup?_globals (h.scopes ▸ h.root) hright,hfind]

theorem lookup?_globals_ok (hlookup : p.left.lookup? x p.left.scopes.size Heap.globals = some (j,v)) :
    j = Heap.globals ∧ p.Knows ρ v := by
  rw [Heap.Alike.lookup?_globals h.root h.outermost] at hlookup
  obtain ⟨w,hw,heq⟩ := Option.map_eq_some_iff.mp hlookup
  obtain ⟨rfl,rfl⟩ := Prod.mk.inj heq
  exact ⟨rfl,h.bound _ x w hw⟩

theorem findMethod? (k : ClassId) (x : String) : p.right.findMethod? k x = p.left.findMethod? k x :=
  Heap.findMethod?_congr h.classes k x

theorem findMethod {k : ClassId} (hf : p.left.findMethod? k x = some f) : p.Closes ρ [false] f := by
  obtain ⟨c,hc⟩ := Heap.findMethod?_mem hf
  exact h.method c x f hc

theorem property? (i : InstanceId) (x : String) : p.right.property? i x = p.left.property? i x :=
  Heap.property?_congr h.classes h.instances i x

theorem property {i : InstanceId} {found : Heap.Property} (hfound : p.left.property? i x = some found) :
    (∀ v, found = .field v → p.Knows ρ v) ∧ ∀ f, found = .method f → p.Closes ρ [false] f := by
  rcases Heap.property?_from hfound with ⟨v,rfl,hv⟩ | ⟨f,c,rfl,hf⟩
  · exact ⟨fun w hw => Heap.Property.field.inj hw ▸ h.field i x v hv,by simp⟩
  · exact ⟨by simp,fun g hg => Heap.Property.method.inj hg ▸ h.method c x f hf⟩

theorem display (hv : p.Knows ρ v) : p.right.display v = p.left.display v :=
  Heap.display_congr h.classes h.instances fun f hf => by
    subst hf
    exact Closes.name hv

theorem callable? (hv : p.Knows ρ v) : p.right.callable? v = p.left.callable? v := by
  refine Heap.callable?_congr h.classes (fun g hg => ?_) fun g hg => ?_
  · subst hg
    exact Closes.name hv
  · rcases hg with rfl | ⟨c,hc⟩
    · exact Closes.arity hv
    · exact (h.method c "init" g hc).arity

/-! ### New scopes and functions -/

theorem enter {s : Scope} {e : ScopeId} (flag : Bool) (s' : Scope) (hs : s.enclosing = some e)
    (he : e.index < p.left.scopes.size) (hfollows : p.Follows e flags) :
    (p.addScope flag s s').Follows ⟨p.left.scopes.size⟩ (flag :: flags) := by
  intro d j hj
  cases d with
  | zero => exact Except.ok.inj hj ▸ if_pos rfl
  | succ d =>
    obtain ⟨e',he',hj⟩ := Heap.ancestor_succ_ok.mp hj
    have hnew : (((p.addScope flag s s').left.getScope ⟨p.left.scopes.size⟩).enclosing) = some e :=
      (congrArg Scope.enclosing (Heap.getScope_new p.left s)).trans hs
    obtain rfl := Option.some.inj (he'.symm.trans hnew)
    exact hfollows.mono h.linked he (Grows.addScope p flag s s') d j hj

/-- A function that has just been made. -/
theorem closes_new {f f' : Function} (hclosure : f'.closure = f.closure)
    (hinitializer : f'.isInitializer = f.isInitializer) (hinRange : f.closure.index < p.left.scopes.size)
    (hfollows : p.Follows f.closure flags)
    (hdeclaration : Stmt.FunctionRenamed ρ (inner ++ flags) f.declaration f'.declaration) :
    (p.addFunction f f').Closes ρ inner ⟨p.left.functions.size⟩ := by
  have hleft : (p.addFunction f f').left.getFunction ⟨p.left.functions.size⟩ = f := by
    rw [HeapPair.addFunction,Heap.getFunction_addFunction]
    exact if_pos rfl
  have hright : (p.addFunction f f').right.getFunction ⟨p.left.functions.size⟩ = f' := by
    rw [HeapPair.addFunction,Heap.getFunction_addFunction]
    exact if_pos h.functions.symm
  refine ⟨by simp [HeapPair.addFunction,Heap.addFunction],?_,?_,?_,flags,?_,?_⟩
  · rw [hleft,hright]
    exact hclosure
  · rw [hleft,hright]
    exact hinitializer
  · rw [hleft]
    exact hinRange
  · rw [hleft]
    exact hfollows.mono h.linked hinRange (.addFunction p f f')
  · rw [hleft,hright]
    exact hdeclaration

/-- A method that has been bound can be called. -/
theorem bind (hf : p.Closes ρ [false] f) (receiver : InstanceId) :
    (p.right.bind f receiver).1 = (p.left.bind f receiver).1 ∧ (p.bind f receiver).Sound ρ ∧
      p.Grows (p.bind f receiver) ∧ (p.bind f receiver).Closes ρ [] (p.left.bind f receiver).1 := by
  let g := p.left.getFunction f
  let g' := p.right.getFunction f
  let s : Scope := ⟨(∅ : Bindings Value).insert "this" (.instance receiver),some g.closure⟩
  let s' : Scope := ⟨(∅ : Bindings Value).insert "this" (.instance receiver),some g'.closure⟩
  let q := p.addScope false s s'
  have hreceiver : p.Knows ρ (.instance receiver) := trivial
  have hq : q.Sound ρ := h.addSingle hf.closure hf.inRange hreceiver "this"
  have hbind : p.bind f receiver =
      q.addFunction { g with closure := ⟨p.left.scopes.size⟩ } { g' with closure := ⟨p.right.scopes.size⟩ } := rfl
  obtain ⟨flags,hfollows,hdeclaration⟩ := hf.declaration
  have hfollows' : q.Follows ⟨p.left.scopes.size⟩ (false :: flags) := h.enter false s' rfl hf.inRange hfollows
  rw [hbind]
  refine ⟨congrArg FunctionId.mk h.functions,hq.addFunction _ _,
    (Grows.addScope p false s s').trans (.addFunction q _ _),?_⟩
  refine hq.closes_new ?_ hf.isInitializer ?_ hfollows' hdeclaration
  · exact congrArg ScopeId.mk h.scopes
  · exact Nat.lt_of_lt_of_eq (Nat.lt_succ_self _) (Array.size_push _).symm

end Sound

end HeapPair
end Lox

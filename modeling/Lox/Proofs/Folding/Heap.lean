import Lox.Proofs.Folding.Tree
import Lox.Proofs.Renaming.Heap

/-! Heaps with the same objects, the first of which has more scopes. Those have no names, and in the second heap
the scope around them stands in their place. -/
namespace Lox

/-- An internal error that is not just a name which the current scope itself does not have. -/
def InternalFault.Misplaced (fault : InternalFault) : Prop := ∀ x, fault = .unbound x 0 → x = "this"

theorem Heap.outward_misplaced {h : Heap} {n d : Nat} {i : ScopeId} {fault : InternalFault}
    (herror : h.outward n d i = .error fault) : fault.Misplaced := by
  induction d generalizing i with
  | zero => cases herror
  | succ d ih =>
    simp only [outward] at herror
    split at herror
    · obtain rfl := Except.error.inj herror
      intro x hx
      cases hx
    · exact ih herror

theorem Heap.lookupAt_misplaced {h : Heap} {i : ScopeId} {d : Nat} {fault : InternalFault}
    (herror : h.lookupAt i d "this" = .error fault) : fault.Misplaced := by
  simp only [lookupAt] at herror
  split at herror
  next fault' hancestor => exact Except.error.inj herror ▸ outward_misplaced hancestor
  next =>
    split at herror
    · cases herror
    · obtain rfl := Except.error.inj herror
      exact fun x hx => (InternalFault.unbound.inj hx).1.symm

/-- Two heaps, the place in the second one of each scope of the first one, and which scopes are spare. -/
structure HeapFold where
  spare : ScopeId → Bool
  place : ScopeId → ScopeId
  left : Heap
  right : Heap

namespace HeapFold

/-- The marks of the scopes from one outward. All those behind the last mark are kept. -/
inductive Follows (p : HeapFold) : List Bool → ScopeId → Prop
  | root {i} (hi : i.index < p.left.scopes.size) (hkept : p.spare i = false)
    (hleft : (p.left.getScope i).enclosing = none) (hright : (p.right.getScope (p.place i)).enclosing = none) :
    Follows p [] i
  | kept {flags i e} (hi : i.index < p.left.scopes.size) (hkept : p.spare i = false)
    (hflag : flags.headD false = false) (hleft : (p.left.getScope i).enclosing = some e)
    (hright : (p.right.getScope (p.place i)).enclosing = some (p.place e)) (houter : Follows p flags.tail e) :
    Follows p flags i
  | spare {flags i e} (hi : i.index < p.left.scopes.size) (hspare : p.spare i = true)
    (hleft : (p.left.getScope i).enclosing = some e) (hplace : p.place i = p.place e)
    (houter : Follows p flags e) : Follows p (true :: flags) i

/-- A function that is called in kept scopes, as many as are given, inside those that it closes over. -/
structure Closes (τ : Tables) (p : HeapFold) (inner : List Bool) (f : FunctionId) : Prop where
  known : f.index < p.left.functions.size
  closure : (p.right.getFunction f).closure = p.place (p.left.getFunction f).closure
  isInitializer : (p.right.getFunction f).isInitializer = (p.left.getFunction f).isInitializer
  declaration : ∃ flags, p.Follows flags (p.left.getFunction f).closure ∧
    Stmt.FunctionFolds τ (inner ++ flags) (p.left.getFunction f).declaration (p.right.getFunction f).declaration

/-- A value of both machines. If it is a function, it can be called. -/
def Knows (τ : Tables) (p : HeapFold) : Value → Prop
  | .function f => p.Closes τ [] f
  | _ => True

/-- The objects are the same, kept scopes have the same names, and spare ones have none. -/
structure Sound (τ : Tables) (p : HeapFold) : Prop where
  functions : p.right.functions.size = p.left.functions.size
  classes : p.right.classes = p.left.classes
  instances : p.right.instances = p.left.instances
  root : 0 < p.left.scopes.size
  outermost : (p.left.getScope Heap.globals).enclosing = none
  outermost_right : (p.right.getScope Heap.globals).enclosing = none
  global : p.spare Heap.globals = false ∧ p.place Heap.globals = Heap.globals
  inRange : ∀ i, i.index < p.left.scopes.size → (p.place i).index < p.right.scopes.size
  apart : ∀ i j, i.index < p.left.scopes.size → j.index < p.left.scopes.size → p.spare i = false →
    p.spare j = false → p.place i = p.place j → i = j
  bindings : ∀ i, i.index < p.left.scopes.size → p.spare i = false →
    (p.right.getScope (p.place i)).bindings = (p.left.getScope i).bindings
  hollow : ∀ i, i.index < p.left.scopes.size → p.spare i = true → (p.left.getScope i).bindings = ∅
  bound : ∀ i name v, (p.left.getScope i).bindings.find? name = some v → p.Knows τ v
  field : ∀ i name v, (p.left.getInstance i).fields.find? name = some v → p.Knows τ v
  method : ∀ k name f, (p.left.getClass k).methods.find? name = some f → p.Closes τ [false] f

/-- Objects have been added, and scopes keep their places. -/
structure Grows (p q : HeapFold) : Prop where
  left : p.left.Extends q.left
  right : p.right.Extends q.right
  spare : ∀ j : ScopeId, j.index < p.left.scopes.size → q.spare j = p.spare j
  place : ∀ j : ScopeId, j.index < p.left.scopes.size → q.place j = p.place j

variable {τ : Tables} {p q r : HeapFold} {i j e : ScopeId} {flags inner : List Bool} {x : String} {v : Value}
  {f : FunctionId} {d : Nat}

/-! ### Growth -/

theorem Grows.refl (p : HeapFold) : p.Grows p := ⟨.refl _,.refl _,fun _ _ => rfl,fun _ _ => rfl⟩

theorem Grows.trans (h : p.Grows q) (h' : q.Grows r) : p.Grows r where
  left := h.left.trans h'.left
  right := h.right.trans h'.right
  spare j hj := (h'.spare j (Nat.lt_of_lt_of_le hj h.left.scopes)).trans (h.spare j hj)
  place j hj := (h'.place j (Nat.lt_of_lt_of_le hj h.left.scopes)).trans (h.place j hj)

theorem Follows.inRange (h : p.Follows flags i) : i.index < p.left.scopes.size := by
  cases h with
  | root hi | kept hi | spare hi => exact hi

theorem Follows.here (h : p.Follows flags i) : p.spare i = flags.headD false := by
  cases h with
  | root _ hkept => exact hkept
  | kept _ hkept hflag => exact hkept.trans hflag.symm
  | spare _ hspare => exact hspare

theorem Follows.mono (h : p.Follows flags i) (hp : p.Sound τ) (hgrows : p.Grows q) : q.Follows flags i := by
  have hin {i : ScopeId} (hi : i.index < p.left.scopes.size) : i.index < q.left.scopes.size :=
    Nat.lt_of_lt_of_le hi hgrows.left.scopes
  have hright {i : ScopeId} (hi : i.index < p.left.scopes.size) :
      (q.right.getScope (q.place i)).enclosing = (p.right.getScope (p.place i)).enclosing := by
    rw [hgrows.place i hi]
    exact hgrows.right.enclosing _ (hp.inRange i hi)
  induction h with
  | root hi hkept hleft hnone =>
    exact .root (hin hi) ((hgrows.spare _ hi).trans hkept) ((hgrows.left.enclosing _ hi).trans hleft)
      ((hright hi).trans hnone)
  | kept hi hkept hflag hleft hsome houter ih =>
    refine .kept (hin hi) ((hgrows.spare _ hi).trans hkept) hflag ((hgrows.left.enclosing _ hi).trans hleft) ?_ ih
    rw [hright hi,hsome,hgrows.place _ houter.inRange]
  | spare hi hspare hleft hplace houter ih =>
    refine .spare (hin hi) ((hgrows.spare _ hi).trans hspare) ((hgrows.left.enclosing _ hi).trans hleft) ?_ ih
    rw [hgrows.place _ hi,hplace,hgrows.place _ houter.inRange]

/-- The scope at a distance from the place of a scope. -/
theorem Follows.ancestor (hfollows : p.Follows flags i) (hj : p.left.ancestor i d = .ok j) :
    p.Follows (flags.drop d) j ∧ p.right.ancestor (p.place i) (folded flags d) = .ok (p.place j) := by
  induction d generalizing flags i with
  | zero =>
    obtain rfl := Except.ok.inj hj
    exact ⟨hfollows,by rw [folded_zero]; rfl⟩
  | succ d ih =>
    obtain ⟨e,he,hj⟩ := Heap.ancestor_succ_ok.mp hj
    cases hfollows with
    | root _ _ hleft =>
      rw [hleft] at he
      cases he
    | kept _ _ hflag hleft hright houter =>
      obtain rfl := Option.some.inj (hleft.symm.trans he)
      obtain ⟨hfollows',hplace⟩ := ih houter hj
      rw [folded_succ hflag]
      exact ⟨List.drop_tail ▸ hfollows',Heap.ancestor_succ_ok.mpr ⟨_,hright,hplace⟩⟩
    | spare _ _ hleft hplace houter =>
      obtain rfl := Option.some.inj (hleft.symm.trans he)
      rw [hplace]
      exact ih houter hj

theorem Closes.mono (h : p.Closes τ inner f) (hp : p.Sound τ) (hgrows : p.Grows q) : q.Closes τ inner f := by
  have hleft := hgrows.left.function f h.known
  have hright := hgrows.right.function f (hp.functions ▸ h.known)
  obtain ⟨flags,hfollows,hdeclaration⟩ := h.declaration
  refine ⟨Nat.lt_of_lt_of_le h.known hgrows.left.functions,?_,?_,flags,?_,?_⟩
  · rw [hleft,hright,hgrows.place _ hfollows.inRange]
    exact h.closure
  · rw [hleft,hright]
    exact h.isInitializer
  · rw [hleft]
    exact hfollows.mono hp hgrows
  · rw [hleft,hright]
    exact hdeclaration

theorem Knows.mono (h : p.Knows τ v) (hp : p.Sound τ) (hgrows : p.Grows q) : q.Knows τ v := by
  cases v with
  | function f => exact Closes.mono h hp hgrows
  | _ => trivial

/-! ### Elementary steps -/

/-- A name is bound in a scope and in its place. -/
def define (p : HeapFold) (i : ScopeId) (x : String) (v : Value) : HeapFold :=
  ⟨p.spare,p.place,p.left.define i x v,p.right.define (p.place i) x v⟩

/-- A new scope in both heaps. -/
def addScope (p : HeapFold) (b : Bindings Value) (e : ScopeId) : HeapFold where
  spare j := if j.index = p.left.scopes.size then false else p.spare j
  place j := if j.index = p.left.scopes.size then ⟨p.right.scopes.size⟩ else p.place j
  left := (p.left.addScope ⟨b,some e⟩).2
  right := (p.right.addScope ⟨b,some (p.place e)⟩).2

/-- A new scope in the first heap only. -/
def addSpare (p : HeapFold) (e : ScopeId) : HeapFold where
  spare j := if j.index = p.left.scopes.size then true else p.spare j
  place j := if j.index = p.left.scopes.size then p.place e else p.place j
  left := (p.left.addScope ⟨∅,some e⟩).2
  right := p.right

def addFunction (p : HeapFold) (f f' : Function) : HeapFold :=
  ⟨p.spare,p.place,(p.left.addFunction f).2,(p.right.addFunction f').2⟩

/-- The heaps after a method has been bound. -/
def bind (p : HeapFold) (f : FunctionId) (receiver : InstanceId) : HeapFold where
  spare := (p.addScope ∅ Heap.globals).spare
  place := (p.addScope ∅ Heap.globals).place
  left := (p.left.bind f receiver).2
  right := (p.right.bind f receiver).2

/-- The same change to both heaps. -/
def change (p : HeapFold) (g : Heap → Heap) : HeapFold := ⟨p.spare,p.place,g p.left,g p.right⟩

theorem Grows.define (p : HeapFold) (i : ScopeId) (x : String) (v : Value) : p.Grows (p.define i x v) :=
  ⟨.define _ _ _ _,.define _ _ _ _,fun _ _ => rfl,fun _ _ => rfl⟩

theorem Grows.addScope (p : HeapFold) (b : Bindings Value) (e : ScopeId) : p.Grows (p.addScope b e) :=
  ⟨.addScope _ _,.addScope _ _,fun _ hj => if_neg (Nat.ne_of_lt hj),fun _ hj => if_neg (Nat.ne_of_lt hj)⟩

theorem Grows.addSpare (p : HeapFold) (e : ScopeId) : p.Grows (p.addSpare e) :=
  ⟨.addScope _ _,.refl _,fun _ hj => if_neg (Nat.ne_of_lt hj),fun _ hj => if_neg (Nat.ne_of_lt hj)⟩

theorem Grows.addFunction (p : HeapFold) (f f' : Function) : p.Grows (p.addFunction f f') :=
  ⟨.addFunction _ _,.addFunction _ _,fun _ _ => rfl,fun _ _ => rfl⟩

theorem Grows.addClass (p : HeapFold) (k : Class) : p.Grows (p.change fun h => (h.addClass k).2) :=
  ⟨.of_eq rfl rfl,.of_eq rfl rfl,fun _ _ => rfl,fun _ _ => rfl⟩

theorem Grows.addInstance (p : HeapFold) (o : Instance) : p.Grows (p.change fun h => (h.addInstance o).2) :=
  ⟨.of_eq rfl rfl,.of_eq rfl rfl,fun _ _ => rfl,fun _ _ => rfl⟩

theorem Grows.setField (p : HeapFold) (i : InstanceId) (x : String) (v : Value) :
    p.Grows (p.change (·.setField i x v)) :=
  ⟨.of_eq rfl rfl,.of_eq rfl rfl,fun _ _ => rfl,fun _ _ => rfl⟩

/-- A scope is new or was there before. -/
theorem old_or_new {h : Heap} {s : Scope} (hi : i.index < (h.addScope s).2.scopes.size) :
    i.index = h.scopes.size ∨ i.index < h.scopes.size := by
  have hsize : (h.addScope s).2.scopes.size = h.scopes.size + 1 := Array.size_push _
  omega

theorem Closes.name (h : p.Closes τ inner f) :
    (p.right.getFunction f).name = (p.left.getFunction f).name := by
  obtain ⟨_,-,hdeclaration⟩ := h.declaration
  exact congrArg Token.lexeme hdeclaration.name

theorem Closes.parameters (h : p.Closes τ inner f) :
    (p.right.getFunction f).declaration.parameters = (p.left.getFunction f).declaration.parameters := by
  obtain ⟨_,-,hdeclaration⟩ := h.declaration
  exact hdeclaration.parameters

theorem Closes.arity (h : p.Closes τ inner f) : (p.right.getFunction f).arity = (p.left.getFunction f).arity :=
  congrArg List.length h.parameters

namespace Sound

variable (h : p.Sound τ)
include h

/-- What values stand for in heaps that have grown. -/
theorem grown (hgrows : p.Grows q) (hclasses : q.left.classes = p.left.classes)
    (hinstances : q.left.instances = p.left.instances) :
    (∀ i name v, (q.left.getInstance i).fields.find? name = some v → q.Knows τ v) ∧
      ∀ k name f, (q.left.getClass k).methods.find? name = some f → q.Closes τ [false] f := by
  refine ⟨fun i name v hv => ?_,fun k name f hf => ?_⟩
  · rw [Heap.getInstance,hinstances] at hv
    exact (h.field i name v hv).mono h hgrows
  · rw [Heap.getClass,hclasses] at hf
    exact (h.method k name f hf).mono h hgrows

theorem define (hi : i.index < p.left.scopes.size) (hkept : p.spare i = false) (hv : (p.define i x v).Knows τ v) :
    (p.define i x v).Sound τ := by
  have hgrows := Grows.define p i x v
  obtain ⟨hfield,hmethod⟩ := h.grown hgrows rfl rfl
  have henclosing (h : Heap) (i j : ScopeId) :
      ((h.define i x v).getScope j).enclosing = (h.getScope j).enclosing := by
    rw [Heap.getScope_define]
    split <;> rfl
  have hsize (h : Heap) (i : ScopeId) : (h.define i x v).scopes.size = h.scopes.size := Heap.define_size _ _ _ _
  have hin {j : ScopeId} (hj : j.index < (p.define i x v).left.scopes.size) : j.index < p.left.scopes.size :=
    Nat.lt_of_lt_of_eq hj (hsize _ _)
  refine { h with
    root := Nat.lt_of_lt_of_le h.root hgrows.left.scopes
    outermost := (henclosing _ _ _).trans h.outermost
    outermost_right := (henclosing _ _ _).trans h.outermost_right
    inRange := fun j hj => Nat.lt_of_lt_of_le (h.inRange j (hin hj)) hgrows.right.scopes
    apart := fun j k hj hk => h.apart j k (hin hj) (hin hk)
    bindings := fun j hj hspare => ?_
    hollow := fun j hj hspare => ?_
    bound := fun j y w hw => ?_
    field := hfield
    method := hmethod }
  · simp only [HeapFold.define,Heap.getScope_define]
    by_cases hij : i = j
    · obtain rfl := hij
      rw [if_pos ⟨rfl,h.inRange i hi⟩,if_pos ⟨rfl,hi⟩]
      exact congrArg (·.insert x v) (h.bindings i hi hkept)
    · have hne : p.place i ≠ p.place j := fun heq => hij (h.apart i j hi (hin hj) hkept hspare heq)
      rw [if_neg fun hand => hne hand.1,if_neg fun hand => hij hand.1]
      exact h.bindings j (hin hj) hspare
  · have hij : i ≠ j := by
      rintro rfl
      rw [show p.spare i = true from hspare] at hkept
      cases hkept
    simp only [HeapFold.define,Heap.getScope_define]
    rw [if_neg fun hand => hij hand.1]
    exact h.hollow j (hin hj) hspare
  · simp only [HeapFold.define,Heap.getScope_define] at hw
    split at hw
    next =>
      rw [Bindings.find?_insert] at hw
      split at hw
      next => exact Option.some.inj hw ▸ hv
      next => exact (h.bound j y w hw).mono h hgrows
    next => exact (h.bound j y w hw).mono h hgrows

theorem addScope {b : Bindings Value} (hbound : ∀ x v, b.find? x = some v → p.Knows τ v) (e : ScopeId) :
    (p.addScope b e).Sound τ := by
  have hgrows := Grows.addScope p b e
  obtain ⟨hfield,hmethod⟩ := h.grown hgrows rfl rfl
  have hroot : Heap.globals.index ≠ p.left.scopes.size := Nat.ne_of_lt h.root
  have hroot' : Heap.globals.index ≠ p.right.scopes.size :=
    Nat.ne_of_lt (h.global.2 ▸ h.inRange Heap.globals h.root)
  have hnew : p.right.scopes.size < (p.addScope b e).right.scopes.size :=
    Nat.lt_of_lt_of_eq (Nat.lt_succ_self _) (Array.size_push _).symm
  -- The place of an old scope is not that of the new one.
  have hold {j : ScopeId} (hj : j.index < p.left.scopes.size) : p.place j ≠ ⟨p.right.scopes.size⟩ :=
    fun heq => Nat.lt_irrefl _ (heq ▸ h.inRange j hj)
  refine { h with
    root := Nat.lt_of_lt_of_le h.root hgrows.left.scopes
    outermost := by simp only [HeapFold.addScope,Heap.getScope_addScope,if_neg hroot,h.outermost]
    outermost_right := by simp only [HeapFold.addScope,Heap.getScope_addScope,if_neg hroot',h.outermost_right]
    global := ⟨(if_neg hroot).trans h.global.1,(if_neg hroot).trans h.global.2⟩
    inRange := fun j hj => ?_
    apart := fun j k hj hk hspare hspare' hplace => ?_
    bindings := fun j hj hspare => ?_
    hollow := fun j hj hspare => ?_
    bound := fun j y w hw => ?_
    field := hfield
    method := hmethod }
  · rcases old_or_new hj with heq | hlt
    · rw [show (p.addScope b e).place j = _ from if_pos heq]
      exact hnew
    · rw [hgrows.place j hlt]
      exact Nat.lt_trans (h.inRange j hlt) hnew
  · rcases old_or_new hj with heq | hlt <;> rcases old_or_new hk with heq' | hlt'
    · obtain ⟨j⟩ := j
      obtain ⟨k⟩ := k
      exact congrArg ScopeId.mk (Eq.trans heq heq'.symm)
    · rw [show (p.addScope b e).place j = _ from if_pos heq,hgrows.place k hlt'] at hplace
      exact absurd hplace.symm (hold hlt')
    · rw [show (p.addScope b e).place k = _ from if_pos heq',hgrows.place j hlt] at hplace
      exact absurd hplace (hold hlt)
    · rw [hgrows.place j hlt,hgrows.place k hlt'] at hplace
      rw [hgrows.spare j hlt] at hspare
      rw [hgrows.spare k hlt'] at hspare'
      exact h.apart j k hlt hlt' hspare hspare' hplace
  · rcases old_or_new hj with heq | hlt
    · rw [show (p.addScope b e).place j = _ from if_pos heq]
      simp only [HeapFold.addScope,Heap.getScope_addScope,if_pos heq,if_true]
    · rw [hgrows.place j hlt]
      rw [hgrows.spare j hlt] at hspare
      simp only [HeapFold.addScope,Heap.getScope_addScope,if_neg (Nat.ne_of_lt hlt),
        if_neg (Nat.ne_of_lt (h.inRange j hlt))]
      exact h.bindings j hlt hspare
  · rcases old_or_new hj with heq | hlt
    · rw [show (p.addScope b e).spare j = _ from if_pos heq] at hspare
      cases hspare
    · rw [hgrows.spare j hlt] at hspare
      simp only [HeapFold.addScope,Heap.getScope_addScope,if_neg (Nat.ne_of_lt hlt)]
      exact h.hollow j hlt hspare
  · simp only [HeapFold.addScope,Heap.getScope_addScope] at hw
    split at hw
    · exact (hbound y w hw).mono h hgrows
    · exact (h.bound j y w hw).mono h hgrows

/-- A new scope with one name. -/
theorem addSingle (hv : p.Knows τ v) (x : String) (e : ScopeId) :
    (p.addScope ((∅ : Bindings Value).insert x v) e).Sound τ := by
  refine h.addScope (fun y w hw => ?_) e
  rw [Bindings.find?_insert] at hw
  split at hw
  · exact Option.some.inj hw ▸ hv
  · simp at hw

theorem addSpare (he : e.index < p.left.scopes.size) : (p.addSpare e).Sound τ := by
  have hgrows := Grows.addSpare p e
  obtain ⟨hfield,hmethod⟩ := h.grown hgrows rfl rfl
  have hroot : Heap.globals.index ≠ p.left.scopes.size := Nat.ne_of_lt h.root
  -- Only old scopes are kept.
  have hold {j : ScopeId} (hj : j.index < (p.addSpare e).left.scopes.size)
      (hspare : (p.addSpare e).spare j = false) : j.index < p.left.scopes.size := by
    refine (old_or_new hj).resolve_left fun heq => ?_
    rw [show (p.addSpare e).spare j = _ from if_pos heq] at hspare
    cases hspare
  refine { h with
    root := Nat.lt_of_lt_of_le h.root hgrows.left.scopes
    outermost := by simp only [HeapFold.addSpare,Heap.getScope_addScope,if_neg hroot,h.outermost]
    global := ⟨(if_neg hroot).trans h.global.1,(if_neg hroot).trans h.global.2⟩
    inRange := fun j hj => ?_
    apart := fun j k hj hk hspare hspare' hplace => ?_
    bindings := fun j hj hspare => ?_
    hollow := fun j hj hspare => ?_
    bound := fun j y w hw => ?_
    field := hfield
    method := hmethod }
  · rcases old_or_new hj with heq | hlt
    · rw [show (p.addSpare e).place j = _ from if_pos heq]
      exact h.inRange e he
    · rw [hgrows.place j hlt]
      exact h.inRange j hlt
  · have hlt := hold hj hspare
    have hlt' := hold hk hspare'
    rw [hgrows.place j hlt,hgrows.place k hlt'] at hplace
    rw [hgrows.spare j hlt] at hspare
    rw [hgrows.spare k hlt'] at hspare'
    exact h.apart j k hlt hlt' hspare hspare' hplace
  · have hlt := hold hj hspare
    rw [hgrows.place j hlt]
    rw [hgrows.spare j hlt] at hspare
    simp only [HeapFold.addSpare,Heap.getScope_addScope,if_neg (Nat.ne_of_lt hlt)]
    exact h.bindings j hlt hspare
  · simp only [HeapFold.addSpare,Heap.getScope_addScope]
    rcases old_or_new hj with heq | hlt
    · rw [if_pos heq]
    · rw [if_neg (Nat.ne_of_lt hlt)]
      rw [hgrows.spare j hlt] at hspare
      exact h.hollow j hlt hspare
  · simp only [HeapFold.addSpare,Heap.getScope_addScope] at hw
    split at hw
    · simp at hw
    · exact (h.bound j y w hw).mono h hgrows

theorem addFunction (f f' : Function) : (p.addFunction f f').Sound τ := by
  have hgrows := Grows.addFunction p f f'
  obtain ⟨hfield,hmethod⟩ := h.grown hgrows rfl rfl
  exact { h with
    functions := by simp [HeapFold.addFunction,Heap.addFunction,h.functions]
    bound := fun j y w hw => (h.bound j y w hw).mono h hgrows
    field := hfield
    method := hmethod }

theorem addClass {k : Class} (hk : ∀ x f, k.methods.find? x = some f → p.Closes τ [false] f) :
    (p.change fun h => (h.addClass k).2).Sound τ := by
  have hgrows := Grows.addClass p k
  exact { h with
    classes := congrArg (·.push k) h.classes
    bound := fun j y w hw => (h.bound j y w hw).mono h hgrows
    field := fun j y w hw => (h.field j y w hw).mono h hgrows
    method := fun c y f hf => by
      rw [HeapFold.change,Heap.getClass_addClass] at hf
      split at hf
      · exact (hk y f hf).mono h hgrows
      · exact (h.method c y f hf).mono h hgrows }

theorem addInstance (k : ClassId) : (p.change fun h => (h.addInstance ⟨k,∅⟩).2).Sound τ := by
  have hgrows := Grows.addInstance p ⟨k,∅⟩
  exact { h with
    instances := by simp only [HeapFold.change,Heap.addInstance,h.instances]
    bound := fun j y w hw => (h.bound j y w hw).mono h hgrows
    field := fun j y w hw => by
      rw [HeapFold.change,Heap.getInstance_addInstance] at hw
      split at hw
      · simp at hw
      · exact (h.field j y w hw).mono h hgrows
    method := fun c y f hf => (h.method c y f hf).mono h hgrows }

theorem setField (hv : p.Knows τ v) (i : InstanceId) (x : String) : (p.change (·.setField i x v)).Sound τ := by
  have hgrows := Grows.setField p i x v
  exact { h with
    instances := by simp only [HeapFold.change,Heap.setField,h.instances]
    bound := fun j y w hw => (h.bound j y w hw).mono h hgrows
    field := fun j y w hw => by
      rcases Heap.find?_setField hw with rfl | hw
      · exact hv.mono h hgrows
      · exact (h.field j y w hw).mono h hgrows
    method := fun c y f hf => (h.method c y f hf).mono h hgrows }

/-! ### Reading -/

/-- What is found in a scope at a distance is found in its place. Spare scopes have nothing to be found. -/
theorem lookupAt_ok (hfollows : p.Follows flags i) (hlookup : p.left.lookupAt i d x = .ok (j,v)) :
    p.right.lookupAt (p.place i) (folded flags d) x = .ok (p.place j,v) ∧ j.index < p.left.scopes.size ∧
      p.spare j = false ∧ flags.getD d false = false ∧ p.Knows τ v := by
  simp only [Heap.lookupAt] at hlookup
  cases hj : p.left.ancestor i d with
  | error fault => simp [hj] at hlookup
  | ok k =>
    simp only [hj] at hlookup
    cases hw : (p.left.getScope k).bindings.find? x with
    | none => simp [hw] at hlookup
    | some w =>
      simp only [hw,Except.ok.injEq,Prod.mk.injEq] at hlookup
      obtain ⟨rfl,rfl⟩ := hlookup
      obtain ⟨hfollows',hplace⟩ := hfollows.ancestor hj
      have hmark : flags.getD d false = p.spare k := by
        rw [hfollows'.here,List.headD_eq_head?_getD,List.head?_drop,List.getD_eq_getElem?_getD]
      have hkept : p.spare k = false := by
        cases hspare : p.spare k with
        | false => rfl
        | true =>
          rw [h.hollow k hfollows'.inRange hspare] at hw
          simp at hw
      refine ⟨?_,hfollows'.inRange,hkept,hmark.trans hkept,h.bound k x w hw⟩
      simp only [Heap.lookupAt,hplace,h.bindings k hfollows'.inRange hkept,hw]

/-- What is not found is not found in the other heap either. Where that is not certain, scopes and syntax tree
disagree by more than one name that is missing. -/
theorem lookupAt_error {fault : InternalFault} (hfollows : p.Follows flags i)
    (hd : flags.getD d false = false ∨ x = "this") (hlookup : p.left.lookupAt i d x = .error fault) :
    fault.Misplaced ∨ p.right.lookupAt (p.place i) (folded flags d) x = .error fault := by
  rcases hd with hmark | rfl
  · simp only [Heap.lookupAt] at hlookup
    cases hj : p.left.ancestor i d with
    | error fault' =>
      simp only [hj,Except.error.injEq] at hlookup
      exact .inl (hlookup ▸ Heap.outward_misplaced hj)
    | ok k =>
      simp only [hj] at hlookup
      cases hw : (p.left.getScope k).bindings.find? x with
      | some w => simp [hw] at hlookup
      | none =>
        simp only [hw,Except.error.injEq] at hlookup
        obtain rfl := hlookup
        cases d with
        | succ d => exact .inl fun y hy => by cases hy
        | zero =>
          obtain rfl := Except.ok.inj hj
          have hkept : p.spare i = false := by
            rw [hfollows.here]
            cases flags <;> exact hmark
          refine .inr ?_
          rw [folded_zero]
          simp [Heap.lookupAt,Heap.ancestor,Heap.outward,h.bindings i hfollows.inRange hkept,hw]
  · exact .inl (Heap.lookupAt_misplaced hlookup)

theorem getAt_ok (hfollows : p.Follows flags i) (hv : p.left.getAt i d x = .ok v) :
    p.right.getAt (p.place i) (folded flags d) x = .ok v ∧ flags.getD d false = false ∧ p.Knows τ v := by
  rw [Heap.getAt] at hv
  cases hlookup : p.left.lookupAt i d x with
  | error fault => simp [hlookup,Except.map] at hv
  | ok found =>
    rw [hlookup] at hv
    obtain rfl := Except.ok.inj hv
    obtain ⟨hright,-,-,hmark,hknows⟩ := h.lookupAt_ok hfollows hlookup
    exact ⟨by rw [Heap.getAt,hright]; rfl,hmark,hknows⟩

theorem getAt_error {fault : InternalFault} (hfollows : p.Follows flags i)
    (hd : flags.getD d false = false ∨ x = "this") (hv : p.left.getAt i d x = .error fault) :
    fault.Misplaced ∨ p.right.getAt (p.place i) (folded flags d) x = .error fault := by
  rw [Heap.getAt] at hv
  cases hlookup : p.left.lookupAt i d x with
  | ok found => simp [hlookup,Except.map] at hv
  | error fault' =>
    rw [hlookup] at hv
    obtain rfl := Except.error.inj hv
    exact (h.lookupAt_error hfollows hd hlookup).imp_right fun hright => by rw [Heap.getAt,hright]; rfl

/-- Only the global scope itself is searched for a global name. -/
theorem lookup?_globals (x : String) : p.right.lookup? x p.right.scopes.size Heap.globals =
    p.left.lookup? x p.left.scopes.size Heap.globals := by
  have hroot : 0 < p.right.scopes.size := Nat.zero_lt_of_lt (h.inRange Heap.globals h.root)
  have hbindings := h.bindings Heap.globals h.root h.global.1
  rw [h.global.2] at hbindings
  rw [Heap.Alike.lookup?_globals h.root h.outermost,Heap.Alike.lookup?_globals hroot h.outermost_right,hbindings]

theorem lookup?_globals_ok (hlookup : p.left.lookup? x p.left.scopes.size Heap.globals = some (j,v)) :
    j = Heap.globals ∧ p.Knows τ v := by
  rw [Heap.Alike.lookup?_globals h.root h.outermost] at hlookup
  obtain ⟨w,hw,heq⟩ := Option.map_eq_some_iff.mp hlookup
  obtain ⟨rfl,rfl⟩ := Prod.mk.inj heq
  exact ⟨rfl,h.bound _ x w hw⟩

theorem findMethod? (k : ClassId) (x : String) : p.right.findMethod? k x = p.left.findMethod? k x :=
  Heap.findMethod?_congr h.classes k x

theorem findMethod {k : ClassId} (hf : p.left.findMethod? k x = some f) : p.Closes τ [false] f := by
  obtain ⟨c,hc⟩ := Heap.findMethod?_mem hf
  exact h.method c x f hc

theorem property? (i : InstanceId) (x : String) : p.right.property? i x = p.left.property? i x :=
  Heap.property?_congr h.classes h.instances i x

theorem property {i : InstanceId} {found : Heap.Property} (hfound : p.left.property? i x = some found) :
    (∀ v, found = .field v → p.Knows τ v) ∧ ∀ f, found = .method f → p.Closes τ [false] f := by
  rcases Heap.property?_from hfound with ⟨v,rfl,hv⟩ | ⟨f,c,rfl,hf⟩
  · exact ⟨fun w hw => Heap.Property.field.inj hw ▸ h.field i x v hv,by simp⟩
  · exact ⟨by simp,fun g hg => Heap.Property.method.inj hg ▸ h.method c x f hf⟩

theorem getClass (k : ClassId) : p.right.getClass k = p.left.getClass k := by
  rw [Heap.getClass,Heap.getClass,h.classes]

theorem display (hv : p.Knows τ v) : p.right.display v = p.left.display v :=
  Heap.display_congr h.classes h.instances fun f hf => by
    subst hf
    exact Closes.name hv

theorem callable? (hv : p.Knows τ v) : p.right.callable? v = p.left.callable? v := by
  refine Heap.callable?_congr h.classes (fun g hg => ?_) fun g hg => ?_
  · subst hg
    exact Closes.name hv
  · rcases hg with rfl | ⟨c,hc⟩
    · exact Closes.arity hv
    · exact (h.method c "init" g hc).arity

/-! ### New scopes and functions -/

theorem enter (b : Bindings Value) (hfollows : p.Follows flags e) :
    (p.addScope b e).Follows (false :: flags) ⟨p.left.scopes.size⟩ := by
  have hgrows := Grows.addScope p b e
  have hplace : (p.addScope b e).place ⟨p.left.scopes.size⟩ = ⟨p.right.scopes.size⟩ := if_pos rfl
  refine .kept (Nat.lt_of_lt_of_eq (Nat.lt_succ_self _) (Array.size_push _).symm) (if_pos rfl) rfl
    (congrArg Scope.enclosing (Heap.getScope_new _ _)) ?_ (hfollows.mono h hgrows)
  rw [hplace,hgrows.place e hfollows.inRange]
  exact congrArg Scope.enclosing (Heap.getScope_new _ _)

theorem enterSpare (hfollows : p.Follows flags e) :
    (p.addSpare e).Follows (true :: flags) ⟨p.left.scopes.size⟩ := by
  have hgrows := Grows.addSpare p e
  refine .spare (Nat.lt_of_lt_of_eq (Nat.lt_succ_self _) (Array.size_push _).symm) (if_pos rfl)
    (congrArg Scope.enclosing (Heap.getScope_new _ _)) ?_ (hfollows.mono h hgrows)
  rw [hgrows.place e hfollows.inRange]
  exact if_pos rfl

/-- A function that has just been made. -/
theorem closes_new {g g' : Function} (hclosure : g'.closure = p.place g.closure)
    (hinitializer : g'.isInitializer = g.isInitializer) (hfollows : p.Follows flags g.closure)
    (hdeclaration : Stmt.FunctionFolds τ (inner ++ flags) g.declaration g'.declaration) :
    (p.addFunction g g').Closes τ inner ⟨p.left.functions.size⟩ := by
  have hleft : (p.addFunction g g').left.getFunction ⟨p.left.functions.size⟩ = g := by
    rw [HeapFold.addFunction,Heap.getFunction_addFunction]
    exact if_pos rfl
  have hright : (p.addFunction g g').right.getFunction ⟨p.left.functions.size⟩ = g' := by
    rw [HeapFold.addFunction,Heap.getFunction_addFunction]
    exact if_pos h.functions.symm
  refine ⟨by simp [HeapFold.addFunction,Heap.addFunction],?_,?_,flags,?_,?_⟩
  · rw [hleft,hright]
    exact hclosure
  · rw [hleft,hright]
    exact hinitializer
  · rw [hleft]
    exact hfollows.mono h (.addFunction p g g')
  · rw [hleft,hright]
    exact hdeclaration

/-- A method that has been bound can be called. -/
theorem bind (hf : p.Closes τ [false] f) (receiver : InstanceId) :
    (p.right.bind f receiver).1 = (p.left.bind f receiver).1 ∧ (p.bind f receiver).Sound τ ∧
      p.Grows (p.bind f receiver) ∧ (p.bind f receiver).Closes τ [] (p.left.bind f receiver).1 := by
  let g := p.left.getFunction f
  let g' := p.right.getFunction f
  let b := (∅ : Bindings Value).insert "this" (.instance receiver)
  let q := p.addScope b g.closure
  have hreceiver : p.Knows τ (.instance receiver) := trivial
  have hq : q.Sound τ := h.addSingle hreceiver "this" g.closure
  have hbind : p.bind f receiver =
      q.addFunction { g with closure := ⟨p.left.scopes.size⟩ } { g' with closure := ⟨p.right.scopes.size⟩ } := by
    simp only [HeapFold.bind,HeapFold.addFunction,Heap.bind,q,HeapFold.addScope,← hf.closure,g,g',b]
    rfl
  obtain ⟨flags,hfollows,hdeclaration⟩ := hf.declaration
  rw [hbind]
  refine ⟨congrArg FunctionId.mk h.functions,hq.addFunction _ _,
    (Grows.addScope p b g.closure).trans (.addFunction q _ _),?_⟩
  exact hq.closes_new (if_pos rfl).symm hf.isInitializer (h.enter b hfollows) hdeclaration

end Sound

end HeapFold
end Lox

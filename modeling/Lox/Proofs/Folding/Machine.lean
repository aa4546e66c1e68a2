import Lox.Evaluation
import Lox.Proofs.Folding.Heap
import Lox.Proofs.Renaming.Machine

/-! Computations that do the same on two machines, the first of which has more scopes. -/
namespace Lox

/-- Two machines, the place in the second one of each scope of the first one, and which scopes are spare. -/
structure MachineFold where
  spare : ScopeId → Bool
  place : ScopeId → ScopeId
  left : Machine
  right : Machine

namespace MachineFold

def heap (t : MachineFold) : HeapFold := ⟨t.spare,t.place,t.left.heap,t.right.heap⟩

/-- The machines are at the same point, with the given marks of the scopes around, and differ only in their
scopes and in their distances. -/
structure At (τ : Tables) (flags : List Bool) (t : MachineFold) : Prop where
  heap : t.heap.Sound τ
  left : t.left.distances = τ.left
  right : t.right.distances = τ.right
  scope : t.right.scope = t.place t.left.scope
  follows : t.heap.Follows flags t.left.scope
  depth : t.right.depth = t.left.depth
  output : t.right.output = t.left.output
  clock : t.right.clock = t.left.clock
  log : t.right.log = t.left.log

/-- A later moment, in the same scope. -/
structure Later (t u : MachineFold) : Prop where
  heap : t.heap.Grows u.heap
  scope : u.left.scope = t.left.scope

/-- The machines with other heaps. -/
def withHeap (t : MachineFold) (p : HeapFold) : MachineFold :=
  ⟨p.spare,p.place,{ t.left with heap := p.left },{ t.right with heap := p.right }⟩

/-- The machines in another scope and its place. -/
def inScope (t : MachineFold) (i : ScopeId) : MachineFold :=
  ⟨t.spare,t.place,{ t.left with scope := i },{ t.right with scope := t.place i }⟩

def atDepth (t : MachineFold) (n : Nat) : MachineFold :=
  ⟨t.spare,t.place,{ t.left with depth := n },{ t.right with depth := n }⟩

def note (t : MachineFold) (e : Event) : MachineFold := ⟨t.spare,t.place,t.left.note e,t.right.note e⟩

variable {τ : Tables} {flags flags' : List Bool} {t u w : MachineFold} {p : HeapFold} {i : ScopeId}

theorem Later.refl (t : MachineFold) : t.Later t := ⟨.refl _,rfl⟩

theorem Later.trans (h : t.Later u) (h' : u.Later w) : t.Later w :=
  ⟨h.heap.trans h'.heap,h'.scope.trans h.scope⟩

theorem Later.withHeap (h : t.heap.Grows p) : t.Later (t.withHeap p) := ⟨h,rfl⟩

namespace At

variable (h : t.At τ flags)
include h

theorem note (e : Event) : (t.note e).At τ flags := { h with log := congrArg (e :: ·) h.log }

theorem withHeap (hp : p.Sound τ) (hgrows : t.heap.Grows p) : (t.withHeap p).At τ flags :=
  { h with
    heap := hp
    scope := h.scope.trans (hgrows.place _ h.follows.inRange).symm
    follows := h.follows.mono h.heap hgrows }

theorem inScope (hfollows : t.heap.Follows flags' i) : (t.inScope i).At τ flags' :=
  { h with scope := rfl, follows := hfollows }

theorem atDepth (n : Nat) : (t.atDepth n).At τ flags := { h with depth := rfl }

theorem findMethod? (k : ClassId) (x : String) : t.right.heap.findMethod? k x = t.left.heap.findMethod? k x :=
  h.heap.findMethod? k x

theorem getClass (k : ClassId) : t.right.heap.getClass k = t.left.heap.getClass k := h.heap.getClass k

theorem property? (j : InstanceId) (x : String) : t.right.heap.property? j x = t.left.heap.property? j x :=
  h.heap.property? j x

theorem callable? {v : Value} (hv : t.heap.Knows τ v) : t.right.heap.callable? v = t.left.heap.callable? v :=
  h.heap.callable? hv

theorem display {v : Value} (hv : t.heap.Knows τ v) : t.right.heap.display v = t.left.heap.display v :=
  h.heap.display hv

end At

/-- How a computation ends on both machines: with the same value, or for the same reason. Nothing is said of the
second one when the first one has found that scopes and syntax tree disagree. -/
inductive Ends {α : Type} (τ : Tables) (flags : List Bool) (t : MachineFold) (Q : HeapFold → α → Prop) :
    EStateM.Result Halt Machine α → EStateM.Result Halt Machine α → Prop
  | ok {a} (u : MachineFold) (hu : u.At τ flags) (hlater : t.Later u) (ha : Q u.heap a) :
    Ends τ flags t Q (.ok a u.left) (.ok a u.right)
  | error {halt} (u : MachineFold) (hu : u.At τ flags) (hlater : t.Later u) :
    Ends τ flags t Q (.error halt u.left) (.error halt u.right)
  | misplaced {fault m y} (hfault : fault.Misplaced) : Ends τ flags t Q (.error (.error (.internal fault)) m) y

theorem Ends.after {α : Type} {Q : HeapFold → α → Prop} {x y : EStateM.Result Halt Machine α}
    (h : u.Ends τ flags Q x y) (hlater : t.Later u) : t.Ends τ flags Q x y := by
  cases h with
  | ok w hw hlater' ha => exact .ok w hw (hlater.trans hlater') ha
  | error w hw hlater' => exact .error w hw (hlater.trans hlater')
  | misplaced hfault => exact .misplaced hfault

end MachineFold

/-- Two computations do the same on two machines. -/
def Eval.Tracks {α : Type} (τ : Tables) (flags : List Bool) (Q : HeapFold → α → Prop) (x y : Eval α)
    (t : MachineFold) : Prop :=
  t.Ends τ flags Q (x t.left) (y t.right)

namespace Eval.Tracks

open MachineFold

variable {α β : Type} {τ : Tables} {flags flags' : List Bool} {t u : MachineFold} {p : HeapFold}
  {Q : HeapFold → α → Prop} {R : HeapFold → β → Prop} {x y : Eval α} {f g : α → Eval β} {e : ScopeId}

/-! ### Computations in general -/

theorem pure {a : α} (ht : t.At τ flags) (ha : Q t.heap a) : Tracks τ flags Q (pure a) (pure a) t :=
  .ok t ht (.refl t) ha

theorem bind (h : Tracks τ flags Q x y t)
    (hf : ∀ a u, u.At τ flags → t.Later u → Q u.heap a → Tracks τ flags R (f a) (g a) u) :
    Tracks τ flags R (x >>= f) (y >>= g) t := by
  simp only [Tracks,Bind.bind,EStateM.bind] at h ⊢
  generalize x t.left = r at h
  generalize y t.right = r' at h
  cases h with
  | ok u hu hlater ha => exact (hf _ u hu hlater ha).after hlater
  | error u hu hlater => exact .error u hu hlater
  | misplaced hfault => exact .misplaced hfault

/-- Computations that have gone on to other machines. -/
theorem after {z w : Eval α} (h : Tracks τ flags Q z w u) (hx : x t.left = z u.left) (hy : y t.right = w u.right)
    (hlater : t.Later u) : Tracks τ flags Q x y t := by
  rw [Tracks,hx,hy]
  exact Ends.after h hlater

/-! ### Steps -/

theorem raise (ht : t.At τ flags) (e : Error) : Tracks τ flags Q (raise e) (raise e) t :=
  .error (t.note _) (ht.note _) ⟨.refl _,rfl⟩

theorem misplaced {fault : InternalFault} (hfault : fault.Misplaced) :
    Tracks τ flags Q (Eval.raise (.internal fault)) y t :=
  Ends.misplaced hfault

theorem runtime (ht : t.At τ flags) (fault : RuntimeFault) (found : Token) :
    Tracks τ flags Q (runtime fault found) (runtime fault found) t :=
  raise ht _

theorem exhausted (ht : t.At τ flags) : Tracks τ flags Q exhausted exhausted t := .error t ht (.refl t)

theorem get {f g : Machine → Eval β} (h : Tracks τ flags R (f t.left) (g t.right) t) :
    Tracks τ flags R (MonadState.get >>= f) (MonadState.get >>= g) t := h

theorem heap {f g : Heap → Eval β} (h : Tracks τ flags R (f t.left.heap) (g t.right.heap) t) :
    Tracks τ flags R (Eval.heap >>= f) (Eval.heap >>= g) t := h

theorem note (e : Event) {f g : Unit → Eval β} (ht : t.At τ flags)
    (h : ∀ u, u.At τ flags → t.Later u → u.heap = t.heap → Tracks τ flags R (f ()) (g ()) u) :
    Tracks τ flags R (Eval.note e >>= f) (Eval.note e >>= g) t :=
  (h (t.note e) (ht.note e) ⟨.refl _,rfl⟩ rfl).after rfl rfl ⟨.refl _,rfl⟩

/-- The heaps are changed. -/
theorem change {change change' : Heap → Heap} {f g : Unit → Eval β} (ht : t.At τ flags) (hp : p.Sound τ)
    (hgrows : t.heap.Grows p) (hleft : change t.left.heap = p.left) (hright : change' t.right.heap = p.right)
    (h : ∀ u, u.At τ flags → t.Later u → u.heap = p → Tracks τ flags R (f ()) (g ()) u) :
    Tracks τ flags R (changeHeap change >>= f) (changeHeap change' >>= g) t := by
  have hlater : t.Later (t.withHeap p) := .withHeap hgrows
  refine (h _ (ht.withHeap hp hgrows) hlater rfl).after ?_ ?_ hlater
  · exact congrArg (fun h => f () { t.left with heap := h }) hleft
  · exact congrArg (fun h => g () { t.right with heap := h }) hright

/-- Objects are added, perhaps at different places. -/
theorem allocate {γ : Type} {f' : γ → Eval β} {add : Heap → α × Heap} {add' : Heap → γ × Heap}
    (ht : t.At τ flags) (hp : p.Sound τ) (hgrows : t.heap.Grows p) (hleft : (add t.left.heap).2 = p.left)
    (hright : (add' t.right.heap).2 = p.right)
    (h : ∀ u, u.At τ flags → t.Later u → u.heap = p →
      Tracks τ flags R (f (add t.left.heap).1) (f' (add' t.right.heap).1) u) :
    Tracks τ flags R (Eval.allocate add >>= f) (Eval.allocate add' >>= f') t := by
  have hlater : t.Later (t.withHeap p) := .withHeap hgrows
  refine (h _ (ht.withHeap hp hgrows) hlater rfl).after ?_ ?_ hlater
  · exact congrArg (fun h => f (add t.left.heap).1 { t.left with heap := h }) hleft
  · exact congrArg (fun h => f' (add' t.right.heap).1 { t.right with heap := h }) hright

/-- A name is bound in the current scope, which is kept. -/
theorem define {x : String} {v : Value} {f g : Unit → Eval β} (ht : t.At τ flags)
    (hflag : flags.headD false = false) (hv : t.heap.Knows τ v)
    (h : ∀ u, u.At τ flags → t.Later u → u.heap = t.heap.define t.left.scope x v →
      Tracks τ flags R (f ()) (g ()) u) :
    Tracks τ flags R (Eval.define x v >>= f) (Eval.define x v >>= g) t := by
  have hgrows := HeapFold.Grows.define t.heap t.left.scope x v
  have hp := ht.heap.define ht.follows.inRange (ht.follows.here.trans hflag) (hv.mono ht.heap hgrows)
  have hlater : t.Later (t.withHeap _) := .withHeap hgrows
  refine (h _ (ht.withHeap hp hgrows) hlater rfl).after rfl ?_ hlater
  exact congrArg (fun i => g () { t.right with heap := t.right.heap.define i x v }) ht.scope

/-- Computations in another scope and its place, and back to the current one. -/
theorem inScope {i : ScopeId} (ht : t.At τ flags) (hfollows : t.heap.Follows flags' i)
    (h : ∀ u, u.At τ flags' → u.heap = t.heap → Tracks τ flags' Q x y u) :
    Tracks τ flags Q (inScope i x) (inScope (t.place i) y) t := by
  have hbody := h (t.inScope i) (ht.inScope hfollows) rfl
  simp only [Tracks] at hbody ⊢
  generalize hx : x (t.inScope i).left = r at hbody
  generalize hy : y (t.inScope i).right = r' at hbody
  let back (u : MachineFold) : MachineFold :=
    ⟨u.spare,u.place,{ u.left with scope := t.left.scope },{ u.right with scope := t.right.scope }⟩
  have hback {u : MachineFold} (hu : u.At τ flags') (hlater : (t.inScope i).Later u) : (back u).At τ flags := by
    have hgrows : t.heap.Grows u.heap := hlater.heap
    exact { hu with
      scope := ht.scope.trans (hgrows.place _ ht.follows.inRange).symm
      follows := ht.follows.mono ht.heap hgrows }
  cases hbody with
  | ok u hu hlater ha =>
    rw [inScope_ok t.left hx,inScope_ok t.right hy]
    exact .ok (back u) (hback hu hlater) ⟨hlater.heap,rfl⟩ ha
  | error u hu hlater =>
    rw [inScope_error t.left hx,inScope_error t.right hy]
    exact .error (back u) (hback hu hlater) ⟨hlater.heap,rfl⟩
  | misplaced hfault =>
    rw [inScope_error t.left hx]
    exact .misplaced hfault

/-- Computations in a new scope. -/
theorem inNew {b : Bindings Value} (ht : t.At τ flags) (hfollows : t.heap.Follows flags' e)
    (hbound : ∀ name v, b.find? name = some v → t.heap.Knows τ v)
    (h : ∀ u, u.At τ (false :: flags') → t.heap.Grows u.heap → Tracks τ (false :: flags') Q x y u) :
    Tracks τ flags Q (inNew ⟨b,some e⟩ x) (inNew ⟨b,some (t.place e)⟩ y) t := by
  have hgrows := HeapFold.Grows.addScope t.heap b e
  refine allocate ht (ht.heap.addScope hbound e) hgrows rfl rfl fun u hu _ hheap => ?_
  have hplace : u.place ⟨t.left.heap.scopes.size⟩ = ⟨t.right.heap.scopes.size⟩ :=
    (congrArg (HeapFold.place · ⟨t.left.heap.scopes.size⟩) hheap).trans (if_pos rfl)
  have hnew : u.heap.Follows (false :: flags') ⟨t.left.heap.scopes.size⟩ := hheap ▸ ht.heap.enter b hfollows
  have hinside := inScope (Q := Q) (x := x) (y := y) hu hnew fun w hw hwheap =>
    h w hw (by rw [hwheap,hheap]; exact hgrows)
  rwa [hplace] at hinside

/-- Computations in a spare scope. The second machine stays where it is. -/
theorem inSpare (ht : t.At τ flags)
    (h : ∀ u, u.At τ (true :: flags) → t.heap.Grows u.heap → Tracks τ (true :: flags) Q x y u) :
    Tracks τ flags Q (Eval.inNew ⟨∅,some t.left.scope⟩ x) y t := by
  let i : ScopeId := ⟨t.left.heap.scopes.size⟩
  let u := t.withHeap (t.heap.addSpare t.left.scope)
  have hgrows : t.heap.Grows u.heap := .addSpare t.heap t.left.scope
  have hu : u.At τ flags := ht.withHeap (ht.heap.addSpare ht.follows.inRange) hgrows
  have hplace : u.place i = t.right.scope := (if_pos rfl).trans ht.scope.symm
  have hright : (u.inScope i).right = t.right := by
    simp only [MachineFold.inScope,hplace]
    rfl
  have hbody := h (u.inScope i) (hu.inScope (ht.heap.enterSpare ht.follows)) hgrows
  simp only [Tracks,hright] at hbody ⊢
  generalize hx : x (u.inScope i).left = r at hbody
  generalize hy : y t.right = r' at hbody
  let back (w : MachineFold) : MachineFold := ⟨w.spare,w.place,{ w.left with scope := t.left.scope },w.right⟩
  have hback {w : MachineFold} (hw : w.At τ (true :: flags)) (hlater : (u.inScope i).Later w) :
      (back w).At τ flags ∧ t.Later (back w) := by
    have hgrows' : u.heap.Grows w.heap := hlater.heap
    have hall := hgrows.trans hgrows'
    have hi : i.index < u.heap.left.scopes.size := (ht.heap.enterSpare ht.follows).inRange
    have hscope : w.right.scope = w.place t.left.scope := by
      rw [hw.scope,hlater.scope]
      exact (hgrows'.place i hi).trans (hplace.trans (ht.scope.trans (hall.place _ ht.follows.inRange).symm))
    exact ⟨{ hw with scope := hscope, follows := ht.follows.mono ht.heap hall },hall,rfl⟩
  have hnew : Eval.inNew ⟨∅,some t.left.scope⟩ x t.left = Eval.inScope i x u.left := rfl
  rw [hnew]
  cases hbody with
  | ok w hw hlater ha =>
    obtain ⟨hat,hlater'⟩ := hback hw hlater
    rw [inScope_ok u.left hx]
    exact .ok (back w) hat hlater' ha
  | error w hw hlater =>
    obtain ⟨hat,hlater'⟩ := hback hw hlater
    rw [inScope_error u.left hx]
    exact .error (back w) hat hlater'
  | misplaced hfault =>
    rw [inScope_error u.left hx]
    exact .misplaced hfault

/-- Computations in one more active call. -/
theorem nested (ht : t.At τ flags) (h : ∀ u, u.At τ flags → u.heap = t.heap → Tracks τ flags Q x y u) :
    Tracks τ flags Q (nested x) (nested y) t := by
  have hbody := h (t.atDepth (t.left.depth + 1)) (ht.atDepth _) rfl
  have hright : (t.atDepth (t.left.depth + 1)).right = { t.right with depth := t.right.depth + 1 } := by
    simp only [atDepth,← ht.depth]
  simp only [Tracks,hright] at hbody ⊢
  generalize hx : x (t.atDepth (t.left.depth + 1)).left = r at hbody
  generalize hy : y { t.right with depth := t.right.depth + 1 } = r' at hbody
  let back (u : MachineFold) : MachineFold :=
    ⟨u.spare,u.place,{ u.left with depth := u.left.depth - 1 },{ u.right with depth := u.right.depth - 1 }⟩
  have hback {u : MachineFold} (hu : u.At τ flags) : (back u).At τ flags :=
    { hu with depth := congrArg (· - 1) hu.depth }
  cases hbody with
  | ok u hu hlater ha =>
    rw [nested_ok t.left hx,nested_ok t.right hy]
    exact .ok (back u) (hback hu) ⟨hlater.heap,hlater.scope⟩ ha
  | error u hu hlater =>
    rw [nested_error t.left hx,nested_error t.right hy]
    exact .error (back u) (hback hu) ⟨hlater.heap,hlater.scope⟩
  | misplaced hfault =>
    rw [nested_error t.left hx]
    exact .misplaced hfault

theorem print (ht : t.At τ flags) (text : String) :
    Tracks τ flags (fun _ _ => True) (print text) (print text) t := by
  let o := (t.left.output.write (text ++ "\n")).2
  let u : MachineFold := ⟨t.spare,t.place,{ t.left with output := o },{ t.right with output := o }⟩
  have hu : u.At τ flags := { ht with output := rfl }
  simp only [Tracks,Eval.print,ht.output]
  cases (t.left.output.write (text ++ "\n")).1 with
  | ok => exact .ok u hu ⟨.refl _,rfl⟩ trivial
  | error fault => exact .error u hu ⟨.refl _,rfl⟩

theorem readClock (ht : t.At τ flags) : Tracks τ flags (fun _ _ => True) readClock readClock t := by
  let c : Clock := { t.left.clock with taken := t.left.clock.taken + 1 }
  let u : MachineFold := ⟨t.spare,t.place,{ t.left with clock := c },{ t.right with clock := c }⟩
  have hu : u.At τ flags := { ht with clock := rfl }
  simp only [Tracks,Eval.readClock,ht.clock]
  exact .ok u hu ⟨.refl _,rfl⟩ trivial

end Eval.Tracks

end Lox

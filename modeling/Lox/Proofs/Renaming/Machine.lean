import Lox.Evaluation
import Lox.Proofs.Renaming.Heap

/-! Computations that do the same on two machines, where some scopes have a variable under another name. -/
namespace Lox

/-- The same error, or two internal ones, whatever they say. -/
inductive Error.Matches : Error → Error → Prop
  | same {e} : Matches e e
  | internal {fault fault'} : Matches (.internal fault) (.internal fault')

inductive Halt.Matches : Halt → Halt → Prop
  | error {e e'} : e.Matches e' → Matches (.error e) (.error e')
  | exhausted : Matches .exhausted .exhausted

/-- Two machines, and which scopes have the variable under its new name in the second one. -/
structure MachinePair where
  renamed : ScopeId → Bool
  left : Machine
  right : Machine

namespace MachinePair

def heap (t : MachinePair) : HeapPair := ⟨t.renamed,t.left.heap,t.right.heap⟩

/-- The machines differ only in the name of the variable, and perhaps in where they are in their programs. -/
structure Comparable (ρ : Renaming) (t : MachinePair) : Prop where
  heap : t.heap.Sound ρ
  distances : t.right.distances = t.left.distances
  bound : ∀ i, t.left.distances.find? i = ρ.bound i
  output : t.right.output = t.left.output
  clock : t.right.clock = t.left.clock

/-- The machines are at the same point, with the given marks of the scopes around. -/
structure At (ρ : Renaming) (flags : List Bool) (t : MachinePair) : Prop extends t.Comparable ρ where
  scope : t.right.scope = t.left.scope
  inRange : t.left.scope.index < t.left.heap.scopes.size
  follows : t.heap.Follows t.left.scope flags
  depth : t.right.depth = t.left.depth

/-- A later moment, in the same scope. -/
structure Later (t u : MachinePair) : Prop where
  heap : t.heap.Grows u.heap
  scope : u.left.scope = t.left.scope

/-- The machines with other heaps. -/
def withHeap (t : MachinePair) (p : HeapPair) : MachinePair :=
  ⟨p.renamed,{ t.left with heap := p.left },{ t.right with heap := p.right }⟩

/-- The machines somewhere else in their programs. -/
def move (t : MachinePair) (i : ScopeId) (n : Nat) : MachinePair :=
  ⟨t.renamed,{ t.left with scope := i, depth := n },{ t.right with scope := i, depth := n }⟩

def note (t : MachinePair) (e e' : Event) : MachinePair := ⟨t.renamed,t.left.note e,t.right.note e'⟩

variable {ρ : Renaming} {flags flags' : List Bool} {t u w : MachinePair} {p : HeapPair} {i : ScopeId}

theorem Later.refl (t : MachinePair) : t.Later t := ⟨.refl _,rfl⟩

theorem Later.trans (h : t.Later u) (h' : u.Later w) : t.Later w :=
  ⟨h.heap.trans h'.heap,h'.scope.trans h.scope⟩

theorem Later.withHeap (h : t.heap.Grows p) : t.Later (t.withHeap p) := ⟨h,rfl⟩

theorem Comparable.note (h : t.Comparable ρ) (e e' : Event) : (t.note e e').Comparable ρ :=
  ⟨h.heap,h.distances,h.bound,h.output,h.clock⟩

theorem Comparable.move (h : t.Comparable ρ) (i : ScopeId) (n : Nat) : (t.move i n).Comparable ρ :=
  ⟨h.heap,h.distances,h.bound,h.output,h.clock⟩

namespace Comparable

variable (h : t.Comparable ρ)
include h

theorem findMethod? (k : ClassId) (x : String) : t.right.heap.findMethod? k x = t.left.heap.findMethod? k x :=
  h.heap.findMethod? k x

theorem property? (j : InstanceId) (x : String) : t.right.heap.property? j x = t.left.heap.property? j x :=
  h.heap.property? j x

theorem callable? {v : Value} (hv : t.heap.Knows ρ v) : t.right.heap.callable? v = t.left.heap.callable? v :=
  h.heap.callable? hv

theorem display {v : Value} (hv : t.heap.Knows ρ v) : t.right.heap.display v = t.left.heap.display v :=
  h.heap.display hv

end Comparable

namespace At

theorem note (h : t.At ρ flags) (e e' : Event) : (t.note e e').At ρ flags :=
  ⟨h.toComparable.note e e',h.scope,h.inRange,h.follows,h.depth⟩

theorem withHeap (h : t.At ρ flags) (hp : p.Sound ρ) (hgrows : t.heap.Grows p) : (t.withHeap p).At ρ flags :=
  ⟨⟨hp,h.distances,h.bound,h.output,h.clock⟩,h.scope,Nat.lt_of_lt_of_le h.inRange hgrows.left.scopes,
    h.follows.mono h.heap.linked h.inRange hgrows,h.depth⟩

theorem move (h : t.At ρ flags) (hi : i.index < t.left.heap.scopes.size) (hfollows : t.heap.Follows i flags')
    (n : Nat) : (t.move i n).At ρ flags' :=
  ⟨h.toComparable.move i n,rfl,hi,hfollows,rfl⟩

/-- The mark of the current scope. -/
theorem here (h : t.At ρ flags) : t.renamed t.left.scope = flags.headD false := HeapPair.Follows.here h.follows

end At

/-- How a computation ends on both machines: with the same value, or for the same reason. -/
inductive Ends {α : Type} (ρ : Renaming) (flags : List Bool) (t : MachinePair) (Q : HeapPair → α → Prop) :
    EStateM.Result Halt Machine α → EStateM.Result Halt Machine α → Prop
  | ok {a} (u : MachinePair) (hu : u.At ρ flags) (hlater : t.Later u) (ha : Q u.heap a) :
    Ends ρ flags t Q (.ok a u.left) (.ok a u.right)
  | error {halt halt'} (u : MachinePair) (hu : u.Comparable ρ) (hhalt : halt.Matches halt') :
    Ends ρ flags t Q (.error halt u.left) (.error halt' u.right)

theorem Ends.after {α : Type} {Q : HeapPair → α → Prop} {x y : EStateM.Result Halt Machine α}
    (h : u.Ends ρ flags Q x y) (hlater : t.Later u) : t.Ends ρ flags Q x y := by
  cases h with
  | ok w hw hlater' ha => exact .ok w hw (hlater.trans hlater') ha
  | error w hw hhalt => exact .error w hw hhalt

end MachinePair

namespace Eval

variable {α : Type} {x : Eval α} {i : ScopeId} {a : α} {halt : Halt} {after : Machine}

theorem inScope_ok (m : Machine) (h : x { m with scope := i } = .ok a after) :
    inScope i x m = .ok a { after with scope := m.scope } := by
  simp only [inScope,h]

theorem inScope_error (m : Machine) (h : x { m with scope := i } = .error halt after) :
    inScope i x m = .error halt { after with scope := m.scope } := by
  simp only [inScope,h]

theorem nested_ok (m : Machine) (h : x { m with depth := m.depth + 1 } = .ok a after) :
    nested x m = .ok a { after with depth := after.depth - 1 } := by
  simp only [nested,h]

theorem nested_error (m : Machine) (h : x { m with depth := m.depth + 1 } = .error halt after) :
    nested x m = .error halt { after with depth := after.depth - 1 } := by
  simp only [nested,h]

end Eval

/-- Two computations do the same on two machines. -/
def Eval.Mimics {α : Type} (ρ : Renaming) (flags : List Bool) (Q : HeapPair → α → Prop) (x y : Eval α)
    (t : MachinePair) : Prop :=
  t.Ends ρ flags Q (x t.left) (y t.right)

namespace Eval.Mimics

open MachinePair

variable {α β : Type} {ρ : Renaming} {flags flags' : List Bool} {t u : MachinePair} {p : HeapPair}
  {Q : HeapPair → α → Prop} {R : HeapPair → β → Prop} {x y : Eval α} {f g : α → Eval β}

/-! ### Computations in general -/

theorem pure {a : α} (ht : t.At ρ flags) (ha : Q t.heap a) : Mimics ρ flags Q (pure a) (pure a) t :=
  .ok t ht (.refl t) ha

theorem bind (h : Mimics ρ flags Q x y t)
    (hf : ∀ a u, u.At ρ flags → t.Later u → Q u.heap a → Mimics ρ flags R (f a) (g a) u) :
    Mimics ρ flags R (x >>= f) (y >>= g) t := by
  simp only [Mimics,Bind.bind,EStateM.bind] at h ⊢
  generalize x t.left = r at h
  generalize y t.right = r' at h
  cases h with
  | ok u hu hlater ha => exact (hf _ u hu hlater ha).after hlater
  | error u hu hhalt => exact .error u hu hhalt

/-- Computations that have gone on to other machines. -/
theorem after {z w : Eval α} (h : Mimics ρ flags Q z w u) (hx : x t.left = z u.left) (hy : y t.right = w u.right)
    (hlater : t.Later u) : Mimics ρ flags Q x y t := by
  rw [Mimics,hx,hy]
  exact Ends.after h hlater

/-! ### Steps -/

theorem raise (ht : t.Comparable ρ) {e e' : Error} (he : e.Matches e') :
    Mimics ρ flags Q (raise e) (raise e') t :=
  .error (t.note _ _) (ht.note _ _) (.error he)

theorem internal (ht : t.Comparable ρ) (fault fault' : InternalFault) :
    Mimics ρ flags Q (Eval.raise (.internal fault)) (Eval.raise (.internal fault')) t :=
  raise ht .internal

theorem runtime (ht : t.Comparable ρ) (fault : RuntimeFault) {found found' : Token}
    (hline : found'.line = found.line) : Mimics ρ flags Q (runtime fault found) (runtime fault found') t := by
  rw [Eval.runtime,Eval.runtime,hline]
  exact raise ht .same

theorem exhausted (ht : t.Comparable ρ) : Mimics ρ flags Q exhausted exhausted t :=
  .error t ht .exhausted

/-- Scopes and syntax tree disagree on both machines or on none. -/
theorem bindChecked (ht : t.Comparable ρ) {r r' : Except InternalFault α} (hr : r'.toOption = r.toOption)
    (h : ∀ a, r = .ok a → Mimics ρ flags R (f a) (g a) t) :
    Mimics ρ flags R (Eval.checked r >>= f) (Eval.checked r' >>= g) t := by
  cases r <;> cases r' <;> simp only [Except.toOption,Option.some.injEq,reduceCtorEq] at hr
  case error.error fault fault' => exact .error (t.note _ _) (ht.note _ _) (.error .internal)
  case ok.ok a b =>
    subst hr
    exact h _ rfl

theorem checked (ht : t.At ρ flags) {r r' : Except InternalFault α} (hr : r'.toOption = r.toOption)
    (hQ : ∀ a, r = .ok a → Q t.heap a) : Mimics ρ flags Q (Eval.checked r) (Eval.checked r') t := by
  have hbind := bindChecked (f := Pure.pure) (g := Pure.pure) ht.toComparable hr fun a ha => pure ht (hQ a ha)
  rwa [bind_pure,bind_pure] at hbind

theorem get {f g : Machine → Eval β} (h : Mimics ρ flags R (f t.left) (g t.right) t) :
    Mimics ρ flags R (MonadState.get >>= f) (MonadState.get >>= g) t := h

theorem heap {f g : Heap → Eval β} (h : Mimics ρ flags R (f t.left.heap) (g t.right.heap) t) :
    Mimics ρ flags R (Eval.heap >>= f) (Eval.heap >>= g) t := h

theorem note {e e' : Event} {f g : Unit → Eval β} (ht : t.At ρ flags)
    (h : ∀ u, u.At ρ flags → t.Later u → u.heap = t.heap → Mimics ρ flags R (f ()) (g ()) u) :
    Mimics ρ flags R (Eval.note e >>= f) (Eval.note e' >>= g) t :=
  (h (t.note e e') (ht.note e e') ⟨.refl _,rfl⟩ rfl).after rfl rfl ⟨.refl _,rfl⟩

/-- The heaps are changed. -/
theorem change {change change' : Heap → Heap} {f g : Unit → Eval β} (ht : t.At ρ flags) (hp : p.Sound ρ)
    (hgrows : t.heap.Grows p) (hleft : change t.left.heap = p.left) (hright : change' t.right.heap = p.right)
    (h : ∀ u, u.At ρ flags → t.Later u → u.heap = p → Mimics ρ flags R (f ()) (g ()) u) :
    Mimics ρ flags R (changeHeap change >>= f) (changeHeap change' >>= g) t := by
  have hlater : t.Later (t.withHeap p) := .withHeap hgrows
  refine (h _ (ht.withHeap hp hgrows) hlater rfl).after ?_ ?_ hlater
  · exact congrArg (fun h => f () { t.left with heap := h }) hleft
  · exact congrArg (fun h => g () { t.right with heap := h }) hright

theorem allocate {add add' : Heap → α × Heap} (ht : t.At ρ flags) (hp : p.Sound ρ) (hgrows : t.heap.Grows p)
    (hleft : (add t.left.heap).2 = p.left) (hright : (add' t.right.heap).2 = p.right)
    (hsame : (add' t.right.heap).1 = (add t.left.heap).1)
    (h : ∀ u, u.At ρ flags → t.Later u → u.heap = p →
      Mimics ρ flags R (f (add t.left.heap).1) (g (add t.left.heap).1) u) :
    Mimics ρ flags R (Eval.allocate add >>= f) (Eval.allocate add' >>= g) t := by
  have hlater : t.Later (t.withHeap p) := .withHeap hgrows
  refine (h _ (ht.withHeap hp hgrows) hlater rfl).after ?_ ?_ hlater
  · exact congrArg (fun h => f (add t.left.heap).1 { t.left with heap := h }) hleft
  · rw [← hsame]
    exact congrArg (fun h => g (add' t.right.heap).1 { t.right with heap := h }) hright

theorem allocated {add add' : Heap → α × Heap} (ht : t.At ρ flags) (hp : p.Sound ρ) (hgrows : t.heap.Grows p)
    (hleft : (add t.left.heap).2 = p.left) (hright : (add' t.right.heap).2 = p.right)
    (hsame : (add' t.right.heap).1 = (add t.left.heap).1) (ha : Q p (add t.left.heap).1) :
    Mimics ρ flags Q (Eval.allocate add) (Eval.allocate add') t := by
  have hallocate := allocate (f := Pure.pure) (g := Pure.pure) ht hp hgrows hleft hright hsame
    fun u hu _ hheap => pure (Q := Q) hu (hheap ▸ ha)
  rwa [bind_pure,bind_pure] at hallocate

/-- A name is bound in the current scope. -/
theorem define {tok tok' : Token} {v : Value} {f g : Unit → Eval β} (ht : t.At ρ flags)
    (htok : ρ.Gives flags (flags.headD false) tok tok')
    (hv : (t.heap.define t.left.scope tok.lexeme tok'.lexeme v).Knows ρ v)
    (h : ∀ u, u.At ρ flags → t.Later u → u.heap = t.heap.define t.left.scope tok.lexeme tok'.lexeme v →
      Mimics ρ flags R (f ()) (g ()) u) :
    Mimics ρ flags R (Eval.define tok.lexeme v >>= f) (Eval.define tok'.lexeme v >>= g) t := by
  have hmark : t.heap.renamed t.left.scope = flags.headD false := ht.here
  have hfresh (hflag : t.heap.renamed t.left.scope = true) : tok.lexeme ≠ ρ.new :=
    htok.fresh (Renaming.mem_of_headD (hmark ▸ hflag))
  have hp := ht.heap.define (hmark ▸ htok.lexeme) hfresh hv
  have hlater : t.Later (t.withHeap _) := .withHeap (.define t.heap t.left.scope tok.lexeme tok'.lexeme v)
  refine (h _ (ht.withHeap hp hlater.heap) hlater rfl).after rfl ?_ hlater
  exact congrArg (fun i => g () { t.right with heap := t.right.heap.define i tok'.lexeme v }) ht.scope

/-- Computations in another scope, and back to the current one. -/
theorem inScope {i : ScopeId} (ht : t.At ρ flags) (hi : i.index < t.left.heap.scopes.size)
    (hfollows : t.heap.Follows i flags') (h : ∀ u, u.At ρ flags' → u.heap = t.heap → Mimics ρ flags' Q x y u) :
    Mimics ρ flags Q (inScope i x) (inScope i y) t := by
  have hright : (t.move i t.left.depth).right = { t.right with scope := i } := by rw [move,← ht.depth]
  have hbody := h (t.move i t.left.depth) (ht.move hi hfollows t.left.depth) rfl
  rw [Mimics,hright] at hbody
  generalize hx : x (t.move i t.left.depth).left = r at hbody
  generalize hy : y { t.right with scope := i } = r' at hbody
  let back (u : MachinePair) : MachinePair :=
    ⟨u.renamed,{ u.left with scope := t.left.scope },{ u.right with scope := t.left.scope }⟩
  have hback {u : MachinePair} (hu : u.Comparable ρ) : (back u).Comparable ρ :=
    ⟨hu.heap,hu.distances,hu.bound,hu.output,hu.clock⟩
  cases hbody with
  | ok u hu hlater ha =>
    have hgrows : t.heap.Grows u.heap := hlater.heap
    have hinRange := Nat.lt_of_lt_of_le ht.inRange hgrows.left.scopes
    have hfollows' := ht.follows.mono ht.heap.linked ht.inRange hgrows
    rw [Mimics,inScope_ok t.left hx,inScope_ok t.right hy,ht.scope]
    exact .ok (back u) ⟨hback hu.toComparable,rfl,hinRange,hfollows',hu.depth⟩ ⟨hgrows,rfl⟩ ha
  | error u hu hhalt =>
    rw [Mimics,inScope_error t.left hx,inScope_error t.right hy,ht.scope]
    exact .error (back u) (hback hu) hhalt

/-- Computations in a new scope, which may be marked. -/
theorem inNew {s s' : Scope} {flag : Bool} {e : ScopeId} (ht : t.At ρ flags) (hs : s.enclosing = some e)
    (hs' : s'.enclosing = some e) (he : e.index < t.left.heap.scopes.size) (hfollows : t.heap.Follows e flags')
    (hbindings : s.bindings.Renamed ρ flag s'.bindings)
    (hbound : ∀ name v, s.bindings.find? name = some v → t.heap.Knows ρ v)
    (h : ∀ u, u.At ρ (flag :: flags') → t.heap.Grows u.heap → Mimics ρ (flag :: flags') Q x y u) :
    Mimics ρ flags Q (inNew s x) (inNew s' y) t := by
  have hp := ht.heap.addScope (hs'.trans hs.symm) (fun k hk => Option.some.inj (hs.symm.trans hk) ▸ he) hbindings
    hbound
  have hgrows := HeapPair.Grows.addScope t.heap flag s s'
  have hnew := ht.heap.enter flag s' hs he hfollows
  refine allocate ht hp hgrows rfl rfl (congrArg ScopeId.mk ht.heap.scopes) fun u hu _ hheap => ?_
  have hinRange : t.left.heap.scopes.size < u.left.heap.scopes.size := by
    show t.left.heap.scopes.size < u.heap.left.scopes.size
    rw [hheap]
    exact Nat.lt_of_lt_of_eq (Nat.lt_succ_self _) (Array.size_push _).symm
  refine inScope hu hinRange (hheap ▸ hnew) fun w hw hwheap => h w hw ?_
  rw [hwheap,hheap]
  exact hgrows

/-- Computations in one more active call. -/
theorem nested (ht : t.At ρ flags) (h : ∀ u, u.At ρ flags → u.heap = t.heap → Mimics ρ flags Q x y u) :
    Mimics ρ flags Q (nested x) (nested y) t := by
  let inside := t.move t.left.scope (t.left.depth + 1)
  have hright : inside.right = { t.right with depth := t.right.depth + 1 } := by
    simp only [inside,move,← ht.scope,← ht.depth]
  have hbody := h inside (ht.move ht.inRange ht.follows (t.left.depth + 1)) rfl
  rw [Mimics,hright] at hbody
  generalize hx : x inside.left = r at hbody
  generalize hy : y { t.right with depth := t.right.depth + 1 } = r' at hbody
  let back (u : MachinePair) : MachinePair :=
    ⟨u.renamed,{ u.left with depth := u.left.depth - 1 },{ u.right with depth := u.right.depth - 1 }⟩
  have hback {u : MachinePair} (hu : u.Comparable ρ) : (back u).Comparable ρ :=
    ⟨hu.heap,hu.distances,hu.bound,hu.output,hu.clock⟩
  cases hbody with
  | ok u hu hlater ha =>
    rw [Mimics,nested_ok t.left hx,nested_ok t.right hy]
    exact .ok (back u) ⟨hback hu.toComparable,hu.scope,hu.inRange,hu.follows,congrArg (· - 1) hu.depth⟩
      ⟨hlater.heap,hlater.scope⟩ ha
  | error u hu hhalt =>
    rw [Mimics,nested_error t.left hx,nested_error t.right hy]
    exact .error (back u) (hback hu) hhalt

theorem print (ht : t.At ρ flags) (text : String) :
    Mimics ρ flags (fun _ _ => True) (print text) (print text) t := by
  let o := (t.left.output.write (text ++ "\n")).2
  let u : MachinePair := ⟨t.renamed,{ t.left with output := o },{ t.right with output := o }⟩
  have hu : u.At ρ flags :=
    ⟨⟨ht.heap,ht.distances,ht.bound,rfl,ht.clock⟩,ht.scope,ht.inRange,ht.follows,ht.depth⟩
  simp only [Mimics,Eval.print,ht.output]
  cases (t.left.output.write (text ++ "\n")).1 with
  | ok => exact .ok u hu ⟨.refl _,rfl⟩ trivial
  | error fault => exact .error u hu.toComparable (.error .same)

theorem readClock (ht : t.At ρ flags) : Mimics ρ flags (fun _ _ => True) readClock readClock t := by
  let c : Clock := { t.left.clock with taken := t.left.clock.taken + 1 }
  let u : MachinePair := ⟨t.renamed,{ t.left with clock := c },{ t.right with clock := c }⟩
  have hu : u.At ρ flags :=
    ⟨⟨ht.heap,ht.distances,ht.bound,ht.output,rfl⟩,ht.scope,ht.inRange,ht.follows,ht.depth⟩
  simp only [Mimics,Eval.readClock,ht.clock]
  exact .ok u hu ⟨.refl _,rfl⟩ trivial

end Eval.Mimics

end Lox

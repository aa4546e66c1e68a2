import Lox.Proofs.Run.Point

/-! What is to hold of a piece of work and of how it ends. -/
namespace Lox

/-- A computation gives a value of one kind or stops in one way. -/
def Eval.Ensures {α : Type} (x : Eval α) (m : Machine) (value : α → Machine → Prop)
    (stop : Halt → Machine → Prop) : Prop :=
  match x m with
  | .ok a m' => value a m'
  | .error halt m' => stop halt m'

/-- Work that has stopped. Only an assignment can have ended it with an internal error. -/
structure Stopped (runs : List Run) (r : Run) (m : Machine) (halt : Halt) (m' : Machine) : Prop where
  heap : m.heap.Extends m'.heap
  distances : m'.distances = m.distances
  good : Good runs m'.heap
  blame : ∀ fault, halt = .error (.internal fault) → ∃ n id name e m₁,
    Visits r (.expr n (.assign id name e)) m₁ ∧ Raises (.expr n (.assign id name e)) m₁ fault

/-- The machine after work that has come to an end. -/
structure Finished (runs : List Run) (added : String → Prop) (m m' : Machine) : Prop where
  later : Later added m m'
  good : Good runs m'.heap

def Finishes {α : Type} (runs : List Run) (r : Run) (added : String → Prop) (x : Eval α) (m : Machine)
    (post : α → Heap → Prop) : Prop :=
  x.Ensures m (fun a m' => Finished runs added m m' ∧ post a m'.heap) (Stopped runs r m)

def Flow.Valid (runs : List Run) (h : Heap) : Flow → Prop
  | .normal => True
  | .returned v => Lox.Valid runs h v

/-- What is to hold of a statement that has come to an end. -/
def Stmt.Ends (s : Stmt) (runs : List Run) (m : Machine) (flow : Flow) (h : Heap) : Prop :=
  flow.Valid runs h ∧ ∀ name, flow = .normal → s.declared? = some name →
    m.scope.index < m.heap.scopes.size → h.Binds m.scope name

/-- What must hold of the machine on which a piece of work is started. -/
def Typed (runs : List Run) : Work → Machine → Prop
  | .program _ ss, m => At runs .top m ∧ ∃ r ∈ runs, StmtsIn r.program .top ss
  | .stmts _ ss, m => ∃ c, At runs c m ∧ c.initializing = none ∧ ∃ r ∈ runs, StmtsIn r.program c ss
  | .stmt _ s, m => ∃ c, At runs c m ∧ c.initializing = none ∧ ∃ r ∈ runs, StmtIn r.program c s
  | .loop _ condition body _, m => ∃ c, At runs c m ∧ c.initializing = none ∧
    body.declared? = none ∧ ∃ r ∈ runs, ExprIn r.program c condition ∧ StmtIn r.program c body
  | .expr _ e, m => ∃ c, At runs c m ∧ ∃ r ∈ runs, ExprIn r.program c e
  | .exprs _ es, m => ∃ c, At runs c m ∧ ∃ r ∈ runs, ExprsIn r.program c es
  | .invoke _ f _ vs, m => Ready runs m ∧ Valid runs m.heap f ∧ (∀ v ∈ vs, Valid runs m.heap v) ∧
    ∃ name, m.heap.callable? f = some (name,vs.length)
  | .apply _ f vs, m => Ready runs m ∧ Valid runs m.heap (.function f) ∧
    (∀ v ∈ vs, Valid runs m.heap v) ∧ (m.heap.getFunction f).arity = vs.length
  | .bind f _, m => Ready runs m ∧ IsMethod runs m.heap f
  | .classDefinition name parent methods, m => ∃ c, At runs c m ∧ c.initializing = none ∧
    ∃ r ∈ runs, ∃ e, StmtIn r.program c (.class name e methods) ∧ e.isSome = parent.isSome

/-- Work that one of the runs comes to. -/
structure Met (runs : List Run) (r : Run) (w : Work) (m : Machine) : Prop where
  member : r ∈ runs
  visits : Visits r w m
  typed : Typed runs w m

/-- Expressions and statements end well with a budget. -/
structure Safe (runs : List Run) (r : Run) (n : Nat) : Prop where
  expr : ∀ e m, Met runs r (.expr n e) m → Finishes runs r (fun _ => False) (evaluate n e) m
    fun v h => Valid runs h v
  stmt : ∀ s m, Met runs r (.stmt n s) m →
    Finishes runs r (s.declared? = some ·) (execute n s) m (s.Ends runs m)

variable {α β : Type} {runs : List Run} {r : Run} {m m' m'' : Machine} {P Q L : String → Prop}
  {x : Eval α} {f : α → Eval β} {post : α → Heap → Prop} {post' : β → Heap → Prop}

theorem Stopped.after {halt : Halt} (h : Stopped runs r m' halt m'') (hl : Later P m m') :
    Stopped runs r m halt m'' :=
  ⟨hl.heap.trans h.heap,h.distances.trans hl.distances,h.good,h.blame⟩

theorem Finished.trans (a : Finished runs P m m') (b : Finished runs Q m' m'')
    (hP : ∀ name, P name → L name) (hQ : ∀ name, Q name → L name) : Finished runs L m m'' :=
  ⟨a.later.trans b.later hP hQ,b.good⟩

namespace Finishes

theorem ok (h : Finishes runs r P x m post) {a : α} (ha : x m = .ok a m') :
    Finished runs P m m' ∧ post a m'.heap := by
  rw [Finishes,Eval.Ensures,ha] at h
  exact h

theorem error (h : Finishes runs r P x m post) {halt : Halt} (ha : x m = .error halt m') :
    Stopped runs r m halt m' := by
  rw [Finishes,Eval.Ensures,ha] at h
  exact h

/-- A computation that gives a value at once. -/
theorem of_ok {a : α} (ha : x m = .ok a m') (h : Finished runs P m m') (hpost : post a m'.heap) :
    Finishes runs r P x m post := by
  rw [Finishes,Eval.Ensures,ha]
  exact ⟨h,hpost⟩

theorem of_error {halt : Halt} (ha : x m = .error halt m') (h : Stopped runs r m halt m') :
    Finishes runs r P x m post := by
  rw [Finishes,Eval.Ensures,ha]
  exact h

/-- A computation whose first part is done. -/
theorem after {y : Eval α} (hx : x m = y m') (h : Finished runs P m m')
    (hrest : Finishes runs r Q y m' post) (hP : ∀ name, P name → L name)
    (hQ : ∀ name, Q name → L name) : Finishes runs r L x m post := by
  cases ha : y m' with
  | ok a m'' =>
    obtain ⟨hlater,hpost⟩ := hrest.ok ha
    exact of_ok (hx.trans ha) (h.trans hlater hP hQ) hpost
  | error halt m'' => exact of_error (hx.trans ha) ((hrest.error ha).after h.later)

theorem after_same {y : Eval α} (hx : x m = y m') (h : Finished runs (fun _ => False) m m')
    (hrest : Finishes runs r Q y m' post) : Finishes runs r Q x m post :=
  after hx h hrest (fun _ hname => hname.elim) fun _ hname => hname

theorem bind (h : Finishes runs r P x m post)
    (hf : ∀ a m', x m = .ok a m' → Finished runs P m m' → post a m'.heap →
      Finishes runs r Q (f a) m' post')
    (hP : ∀ name, P name → L name) (hQ : ∀ name, Q name → L name) :
    Finishes runs r L (x >>= f) m post' := by
  cases ha : x m with
  | ok a m' =>
    obtain ⟨hlater,hpost⟩ := h.ok ha
    have hrest := hf a m' ha hlater hpost
    have hbind : (x >>= f) m = f a m' := by
      show EStateM.bind x f m = _
      simp only [EStateM.bind,ha]
    cases hb : f a m' with
    | ok b m'' =>
      obtain ⟨hlater',hpost'⟩ := hrest.ok hb
      exact of_ok (hbind.trans hb) (hlater.trans hlater' hP hQ) hpost'
    | error halt m'' =>
      exact of_error (hbind.trans hb) ((hrest.error hb).after hlater.later)
  | error halt m' =>
    have hbind : (x >>= f) m = .error halt m' := by
      show EStateM.bind x f m = _
      simp only [EStateM.bind,ha]
    exact of_error hbind (h.error ha)

/-- The first part adds no names. -/
theorem bind_same (h : Finishes runs r (fun _ => False) x m post)
    (hf : ∀ a m', x m = .ok a m' → Finished runs (fun _ => False) m m' → post a m'.heap →
      Finishes runs r Q (f a) m' post') : Finishes runs r Q (x >>= f) m post' :=
  h.bind hf (fun _ hname => hname.elim) fun _ hname => hname

theorem mono (h : Finishes runs r P x m post) (hP : ∀ name, P name → Q name)
    {post' : α → Heap → Prop}
    (hpost : ∀ a m', Finished runs P m m' → post a m'.heap → post' a m'.heap) :
    Finishes runs r Q x m post' := by
  cases ha : x m with
  | ok a m' =>
    obtain ⟨hlater,ha'⟩ := h.ok ha
    exact of_ok ha ⟨hlater.later.mono hP,hlater.good⟩ (hpost a m' hlater ha')
  | error halt m' => exact of_error ha (h.error ha)

theorem get {f : Machine → Eval β} (h : Finishes runs r P (f m) m post') :
    Finishes runs r P (MonadState.get >>= f) m post' := h

theorem heap {f : Heap → Eval β} (h : Finishes runs r P (f m.heap) m post') :
    Finishes runs r P (Eval.heap >>= f) m post' := h

theorem note {e : Event} {f : Unit → Eval β} (hgood : Good runs m.heap)
    (h : Finishes runs r P (f ()) (m.note e) post') :
    Finishes runs r P (Eval.note e >>= f) m post' :=
  after_same (y := f ()) rfl ⟨.of_eq rfl rfl rfl,hgood⟩ h

/-- Work in a new scope adds no names to those that were there before. -/
theorem inNew {s : Scope} (h : Finishes runs r P x (m.inNew s) post) :
    Finishes runs r (fun _ => False) (Eval.inNew s x) m post := by
  have hscope : Eval.inNew s x m = match x (m.inNew s) with
      | .ok a after => .ok a { after with scope := m.scope }
      | .error halt after => .error halt { after with scope := m.scope } := rfl
  cases ha : x (m.inNew s) with
  | ok a m' =>
    obtain ⟨hfinished,hpost⟩ := h.ok ha
    rw [ha] at hscope
    exact of_ok hscope ⟨hfinished.later.inNew,hfinished.good⟩ hpost
  | error halt m' =>
    have hstopped := h.error ha
    rw [ha] at hscope
    exact of_error hscope ⟨(Heap.Extends.addScope m.heap s).trans hstopped.heap,hstopped.distances,
      hstopped.good,hstopped.blame⟩

theorem nested (h : Finishes runs r P x m.deeper post) : Finishes runs r P (Eval.nested x) m post := by
  have hnested : Eval.nested x m = match x m.deeper with
      | .ok a after => .ok a { after with depth := after.depth - 1 }
      | .error halt after => .error halt { after with depth := after.depth - 1 } := rfl
  cases ha : x m.deeper with
  | ok a m' =>
    obtain ⟨hfinished,hpost⟩ := h.ok ha
    have hlater := hfinished.later
    rw [ha] at hnested
    exact of_ok hnested ⟨⟨hlater.heap,hlater.scope,hlater.distances,hlater.names⟩,hfinished.good⟩ hpost
  | error halt m' =>
    have hstopped := h.error ha
    rw [ha] at hnested
    exact of_error hnested ⟨hstopped.heap,hstopped.distances,hstopped.good,hstopped.blame⟩

/-- An error of the program. -/
theorem raise (hgood : Good runs m.heap) {e : Error} (he : ∀ fault, e ≠ .internal fault) :
    Finishes runs r P (Eval.raise e) m post :=
  of_error rfl ⟨.refl _,rfl,hgood,fun fault hfault => absurd (Halt.error.inj hfault) (he fault)⟩

theorem runtime (hgood : Good runs m.heap) (fault : RuntimeFault) (found : Token) :
    Finishes runs r P (Eval.runtime fault found) m post :=
  raise hgood fun _ => by simp

end Finishes

end Lox

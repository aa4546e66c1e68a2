import Lox.Proofs.Heap.Retained
import Lox.Proofs.Run.Moment
import Lox.Proofs.Run.Variable

/-! The order in time of the pieces of work that a computation consists of, seen by the heaps on which they start
and end. -/
namespace Lox

open Eval

/-- Work, and all that is done in the course of it. -/
inductive Part : Work → Machine → Work → Machine → Prop
  | whole {w m} : Part w m w m
  | part {w m w' m' w'' m''} (hs : Starts w m w' m') (h : Part w' m' w'' m'') : Part w m w'' m''

theorem Part.step {w w' w'' : Work} {m m' m'' : Machine} (h : Part w m w' m') (hs : Starts w' m' w'' m'') :
    Part w m w'' m'' := by
  induction h with
  | whole => exact .part hs .whole
  | part hs' _ ih => exact .part hs' (ih hs)

theorem Visits.part {r : Run} {w : Work} {m : Machine} (h : Visits r w m) :
    Part (.program r.budget r.program) r.machine w m := by
  induction h with
  | start => exact .whole
  | step _ hs ih => exact ih.step hs

/-- The heap just after work has made the scope that it makes first, if it makes one. -/
def Work.opened (w : Work) (m : Machine) : Heap :=
  match w with
  | .stmt (_ + 1) (.block _) => (m.inNew ⟨∅,some m.scope⟩).heap
  | .apply _ f vs => (m.calling f vs).heap
  | .bind f i => (m.binding f i).heap
  | .classDefinition name (some c) _ =>
    let s : Scope := ⟨(∅ : Bindings Value).insert "super" (.class c),some m.scope⟩
    ((m.heap.define m.scope name.lexeme .nil).addScope s).2
  | _ => m.heap

/-- Some work is done between two heaps. One piece of it after the other starts, makes its scope and ends, and what
a heap has is kept from then on. -/
structure Course (done : Work → Machine → Prop) (h h' : Heap) : Prop where
  retains : h.Retains h'
  before : ∀ w m, done w m → h.Retains m.heap
  opens : ∀ w m, done w m → m.heap.Retains (w.opened m)
  behind : ∀ w m, done w m → (w.opened m).Retains h'
  ordered : ∀ w m w' m', done w m → done w' m' → (w.opened m).Retains m'.heap ∨ m'.heap.Retains m.heap

namespace Course

variable {done done' : Work → Machine → Prop} {h h₁ h₂ : Heap} {w : Work} {m : Machine}

theorem retained (a : Course done h h₁) (hw : done w m) : m.heap.Retains h₁ :=
  (a.opens w m hw).trans (a.behind w m hw)

theorem of_retains (hh : h.Retains h₁) : Course (fun _ _ => False) h h₁ :=
  ⟨hh,fun _ _ => False.elim,fun _ _ => False.elim,fun _ _ => False.elim,fun _ _ _ _ => False.elim⟩

theorem mono (a : Course done h h₁) (hdone : ∀ w m, done' w m → done w m) : Course done' h h₁ where
  retains := a.retains
  before w m hw := a.before w m (hdone w m hw)
  opens w m hw := a.opens w m (hdone w m hw)
  behind w m hw := a.behind w m (hdone w m hw)
  ordered w m w' m' hw hw' := a.ordered w m w' m' (hdone w m hw) (hdone w' m' hw')

/-- Some work comes after other work. -/
theorem trans (a : Course done h h₁) (b : Course done' h₁ h₂) :
    Course (fun w m => done w m ∨ done' w m) h h₂ where
  retains := a.retains.trans b.retains
  before w m hw := hw.elim (a.before w m) fun hw => a.retains.trans (b.before w m hw)
  opens w m hw := hw.elim (a.opens w m) (b.opens w m)
  behind w m hw := hw.elim (fun hw => (a.behind w m hw).trans b.retains) (b.behind w m)
  ordered w m w' m' hw hw' := by
    rcases hw with hw | hw <;> rcases hw' with hw' | hw'
    · exact a.ordered w m w' m' hw hw'
    · exact .inl ((a.behind w m hw).trans (b.before w' m' hw'))
    · exact .inr ((a.opens w' m' hw').trans ((a.behind w' m' hw').trans (b.before w m hw)))
    · exact b.ordered w m w' m' hw hw'

/-- Work starts in front of its parts, and they come after the scope that it makes. -/
theorem whole (a : Course (fun w' m' => ∃ w₁ m₁, Starts w m w₁ m₁ ∧ Part w₁ m₁ w' m') (w.opened m) h₁)
    (hopens : m.heap.Retains (w.opened m)) : Course (Part w m) m.heap h₁ := by
  have hparts {w' : Work} {m' : Machine} (hw : Part w m w' m') :
      (w' = w ∧ m' = m) ∨ ∃ w₁ m₁, Starts w m w₁ m₁ ∧ Part w₁ m₁ w' m' := by
    cases hw with
    | whole => exact .inl ⟨rfl,rfl⟩
    | part hs hw => exact .inr ⟨_,_,hs,hw⟩
  refine ⟨hopens.trans a.retains,fun w' m' hw => ?_,fun w' m' hw => ?_,fun w' m' hw => ?_,
    fun w₁ m₁ w₂ m₂ hw₁ hw₂ => ?_⟩
  · rcases hparts hw with ⟨rfl,rfl⟩ | hw
    · exact .refl _
    · exact hopens.trans (a.before w' m' hw)
  · rcases hparts hw with ⟨rfl,rfl⟩ | hw
    · exact hopens
    · exact a.opens w' m' hw
  · rcases hparts hw with ⟨rfl,rfl⟩ | hw
    · exact a.retains
    · exact a.behind w' m' hw
  · rcases hparts hw₁ with ⟨rfl,rfl⟩ | hw₁ <;> rcases hparts hw₂ with ⟨rfl,rfl⟩ | hw₂
    · exact .inr (.refl _)
    · exact .inl (a.before w₂ m₂ hw₂)
    · exact .inr (hopens.trans (a.before w₁ m₁ hw₁))
    · exact a.ordered w₁ m₁ w₂ m₂ hw₁ hw₂

end Course

/-- What is done in the course of a computation, at the most. -/
def Eval.Takes {α : Type} (done : Work → Machine → Prop) (x : Eval α) (m : Machine) : Prop :=
  Course done m.heap (x.after m).heap

/-- Nothing is started in the course of the computation. -/
abbrev Eval.Idle {α : Type} (x : Eval α) (m : Machine) : Prop := x.Takes (fun _ _ => False) m

namespace Eval.Takes

variable {α β : Type} {done done' : Work → Machine → Prop} {x : Eval α} {f : α → Eval β} {m m₁ : Machine}
  {w : Work}

theorem mono (h : x.Takes done m) (hdone : ∀ w m, done' w m → done w m) : x.Takes done' m := Course.mono h hdone

theorem of_ok {a : α} (hx : x m = .ok a m₁) (h : m.heap.Retains m₁.heap) : x.Idle m := by
  simp only [Takes,Eval.after,hx]
  exact .of_retains h

theorem of_error {halt : Halt} (hx : x m = .error halt m₁) (h : m.heap.Retains m₁.heap) : x.Idle m := by
  simp only [Takes,Eval.after,hx]
  exact .of_retains h

/-- The heap is the same when another computation takes over. -/
theorem after {y : Eval α} (hx : x m = y m₁) (hheap : m₁.heap = m.heap) (h : y.Takes done m₁) :
    x.Takes done m := by
  simp only [Takes,Eval.after,hx] at h ⊢
  rwa [hheap] at h

/-- The second computation follows if the first one gives a value. -/
theorem bind {D : α → Machine → Work → Machine → Prop} (hx : x.Takes done m)
    (hf : ∀ a m₁, x m = .ok a m₁ → (f a).Takes (D a m₁) m₁) :
    (x >>= f).Takes (fun w m' => done w m' ∨ ∃ a m₁, x m = .ok a m₁ ∧ D a m₁ w m') m := by
  simp only [Takes,Eval.after,Bind.bind,EStateM.bind] at hx ⊢
  cases hfirst : x m with
  | ok a m₁ =>
    rw [hfirst] at hx
    refine (hx.trans (hf a m₁ hfirst)).mono fun w m' hw => hw.imp_right ?_
    rintro ⟨b,m₂,heq,hw⟩
    obtain ⟨rfl,rfl⟩ := EStateM.Result.ok.inj heq
    exact hw
  | error halt m₁ =>
    rw [hfirst] at hx
    refine hx.mono fun w m' hw => hw.resolve_right ?_
    rintro ⟨b,m₂,heq,-⟩
    cases heq

theorem bind_idle (hx : x.Takes done m) (hf : ∀ a m₁, x m = .ok a m₁ → (f a).Idle m₁) :
    (x >>= f).Takes done m :=
  (hx.bind hf).mono fun _ _ => .inl

theorem ite {c : Prop} [Decidable c] {y : Eval α} (hx : c → x.Takes done m) (hy : ¬c → y.Takes done m) :
    (if c then x else y).Takes done m := by
  split
  next h => exact hx h
  next h => exact hy h

theorem inScope {i : ScopeId} (h : x.Takes done { m with scope := i }) : (inScope i x).Takes done m := by
  rw [Takes,after_inScope]
  exact h

theorem nested (h : x.Takes done m.deeper) : (nested x).Takes done m := by
  rw [Takes,after_nested]
  exact h

/-- All that work does are its parts. -/
theorem whole (h : x.Takes (fun w' m' => ∃ w₁ m₁, Starts w m w₁ m₁ ∧ Part w₁ m₁ w' m') m)
    (hopened : w.opened m = m.heap) : x.Takes (Part w m) m :=
  Course.whole (by rwa [hopened]) (by rw [hopened]; exact .refl _)

/-! ### Elementary computations -/

theorem pure (a : α) : (pure a : Eval α).Idle m := of_ok rfl (.refl _)

theorem raise (e : Error) : (raise e : Eval α).Idle m := of_error rfl (.refl _)

theorem runtime (fault : RuntimeFault) (found : Token) : (runtime fault found : Eval α).Idle m := raise _

theorem exhausted : (exhausted : Eval α).Idle m := of_error rfl (.refl _)

theorem allocate {add : Heap → α × Heap} (h : m.heap.Retains (add m.heap).2) : (allocate add).Idle m := of_ok rfl h

theorem print (text : String) : (print text).Idle m := by
  simp only [Takes,after_print]
  exact .of_retains (.refl _)

theorem assign {name : Token} (hname : name.IsName) (id : ExprId) (v : Value) : (assign id name v).Idle m := by
  rcases target_cases id name m with ⟨j,htarget,-⟩ | ⟨e,htarget⟩
  · exact of_ok (assign_ok htarget v) (.define m.heap j hname v)
  · exact after (assign_raise htarget v) rfl (raise e)

theorem composes : Composes fun x => ∀ m, x.Idle m where
  pure a _ := pure a
  bind hx hf m := bind_idle (hx m) fun a m₁ _ => hf a m₁
  get hf _ m := hf m m
  note _ _ := of_ok rfl (.refl _)
  raise e _ := raise e
  bindMethod f i m := of_ok rfl (.bind m.heap f i)

end Eval.Takes

end Lox

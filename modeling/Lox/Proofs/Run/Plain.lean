import Lox.Proofs.Run.Composition

/-! Computations that come to an end within any budget, and do the same whatever has been written and
whatever the time is. -/
namespace Lox

/-- The outcome on a machine with another output and another clock. -/
def Eval.amid {α : Type} (o : Output) (c : Clock) :
    EStateM.Result Halt Machine α → EStateM.Result Halt Machine α
  | .ok a m => .ok a (m.amid o c)
  | .error halt m => .error halt (m.amid o c)

structure Eval.Plain {α : Type} (x : Eval α) : Prop where
  amid : ∀ m o c, x (m.amid o c) = Eval.amid o c (x m)
  decided : ∀ m m', x m ≠ .error .exhausted m'

namespace Eval.Plain

variable {α β : Type} {x : Eval α} {f : α → Eval β}

/-! ### Elementary computations -/

theorem of_ok {a : Machine → α} {change : Machine → Machine} (hx : ∀ m, x m = .ok (a m) (change m))
    (ha : ∀ m o c, a (m.amid o c) = a m) (hchange : ∀ m o c, change (m.amid o c) = (change m).amid o c) :
    x.Plain where
  amid m o c := by rw [hx,hx,ha,hchange,Eval.amid]
  decided m m' h := by simp [hx m] at h

theorem of_error {change : Machine → Machine} {e : Error} (hx : ∀ m, x m = .error (.error e) (change m))
    (hchange : ∀ m o c, change (m.amid o c) = (change m).amid o c) : x.Plain where
  amid m o c := by rw [hx,hx,hchange,Eval.amid]
  decided m m' h := by simp [hx m] at h

theorem pure (a : α) : (pure a : Eval α).Plain := of_ok (fun _ => rfl) (fun _ _ _ => rfl) fun _ _ _ => rfl

theorem bind (hx : x.Plain) (hf : ∀ a, (f a).Plain) : (x >>= f).Plain where
  amid m o c := by
    simp only [Bind.bind,EStateM.bind,hx.amid]
    cases x m with
    | ok a m₁ => exact (hf a).amid m₁ o c
    | error halt m₁ => rfl
  decided m m' h := by
    simp only [Bind.bind,EStateM.bind] at h
    split at h
    next a m₁ _ => exact (hf a).decided m₁ m' h
    next he =>
      cases h
      exact hx.decided m m' he

/-- What is done next may depend on the machine, but not on its output or its clock. -/
theorem get {f : Machine → Eval β} (hf : ∀ m, (f m).Plain) (hsame : ∀ m o c, f (m.amid o c) = f m) :
    (MonadState.get >>= f).Plain where
  amid m o c := (congrFun (hsame m o c) _).trans ((hf m).amid m o c)
  decided m m' := (hf m).decided m m'

theorem note (e : Event) : (note e).Plain := of_ok (fun _ => rfl) (fun _ _ _ => rfl) fun _ _ _ => rfl

theorem raise (e : Error) : (raise e : Eval α).Plain := of_error (fun _ => rfl) fun _ _ _ => rfl

theorem stop (e : Error) : (stop e : Eval α).Plain := of_error (fun _ => rfl) fun _ _ _ => rfl

theorem changeHeap (change : Heap → Heap) : (changeHeap change).Plain :=
  of_ok (fun _ => rfl) (fun _ _ _ => rfl) fun _ _ _ => rfl

theorem allocate (add : Heap → α × Heap) : (allocate add).Plain :=
  of_ok (fun _ => rfl) (fun _ _ _ => rfl) fun _ _ _ => rfl

theorem define (name : String) (v : Value) : (define name v).Plain :=
  get (fun _ => changeHeap _) fun _ _ _ => rfl

/-! ### Computations that are put together -/

theorem composes : Composes @Plain where
  pure := pure
  bind := bind
  get := get
  note := note
  raise := raise
  bindMethod _ _ := allocate _

theorem assign (id : ExprId) (name : Token) (v : Value) : (assign id name v).Plain :=
  bind (composes.target id name) fun _ => changeHeap _

theorem defineClass (name : Token) (superclass : Option ClassId) (methods : List FunctionDecl) :
    (defineClass name superclass methods).Plain := by
  refine bind (define _ _) fun _ => bind (composes.methodScope (fun _ => allocate _) superclass) fun closure =>
    bind (composes.addMethods (fun _ => allocate _) closure methods) fun fs => bind (allocate _) fun c =>
    get (fun m => ?_) fun _ _ _ => rfl
  cases m.heap.holder? m.scope name.lexeme with
  | none => exact raise _
  | some holder => exact changeHeap _

end Eval.Plain

end Lox

import Lox.Proofs.Alike.Machine
import Lox.Proofs.Run.Composition
import Lox.Proofs.Run.Visit

/-! However a computation ends, it comes back to the scope and the depth that it was started in. While it is
under way, the depth counts the calls that are active. -/
namespace Lox

open Eval

/-- The machine that a computation leaves, with a result or without one. -/
def Eval.after {α : Type} (x : Eval α) (m : Machine) : Machine :=
  match x m with
  | .ok _ m₁ => m₁
  | .error _ m₁ => m₁

/-- However it ends, the computation has come back to where it was started. -/
def Eval.Restores {α : Type} (x : Eval α) : Prop := ∀ m : Machine, m.Resumes (x.after m)

theorem Eval.after_inScope {α : Type} (scope : ScopeId) (x : Eval α) (m : Machine) :
    (inScope scope x).after m = { x.after { m with scope := scope } with scope := m.scope } := by
  simp only [Eval.after,inScope]
  cases x { m with scope := scope } <;> rfl

theorem Eval.after_nested {α : Type} (x : Eval α) (m : Machine) :
    (nested x).after m = { x.after m.deeper with depth := (x.after m.deeper).depth - 1 } := by
  simp only [Eval.after,nested]
  cases h : x m.deeper with
  | ok => rw [Machine.deeper] at h; rw [h]
  | error => rw [Machine.deeper] at h; rw [h]

theorem Eval.after_print (text : String) (m : Machine) :
    (print text).after m = { m with output := (m.output.write (text ++ "\n")).2 } := by
  simp only [Eval.after,Eval.print]
  cases (m.output.write (text ++ "\n")).1 <;> rfl

theorem Eval.bind_of_ok {α β : Type} {x : Eval α} {a : α} {m m₁ : Machine} (h : x m = .ok a m₁) (f : α → Eval β) :
    (x >>= f) m = f a m₁ := by
  simp only [Bind.bind,EStateM.bind,h]

theorem Eval.bind_of_error {α β : Type} {x : Eval α} {halt : Halt} {m m₁ : Machine} (h : x m = .error halt m₁)
    (f : α → Eval β) : (x >>= f) m = .error halt m₁ := by
  simp only [Bind.bind,EStateM.bind,h]

theorem Eval.of_bind_ok {α β : Type} {x : Eval α} {f : α → Eval β} {b : β} {m m' : Machine}
    (h : (x >>= f) m = .ok b m') : ∃ a m₁, x m = .ok a m₁ ∧ f a m₁ = .ok b m' := by
  cases hx : x m with
  | ok a m₁ => exact ⟨a,m₁,rfl,(bind_of_ok hx f).symm.trans h⟩
  | error halt m₁ => cases (bind_of_error hx f).symm.trans h

namespace Eval.Restores

variable {α β : Type} {x : Eval α} {f : α → Eval β}

/-! ### Elementary computations -/

theorem of_ok {a : Machine → α} {change : Machine → Machine} (hx : ∀ m, x m = .ok (a m) (change m))
    (hresumes : ∀ m : Machine, m.Resumes (change m)) : x.Restores := by
  intro m
  rw [Eval.after,hx]
  exact hresumes m

theorem of_error {change : Machine → Machine} {halt : Halt} (hx : ∀ m, x m = .error halt (change m))
    (hresumes : ∀ m : Machine, m.Resumes (change m)) : x.Restores := by
  intro m
  rw [Eval.after,hx]
  exact hresumes m

theorem pure (a : α) : (pure a : Eval α).Restores := of_ok (fun _ => rfl) .refl

theorem get : (get : Eval Machine).Restores := of_ok (fun _ => rfl) .refl

theorem bind (hx : x.Restores) (hf : ∀ a, (f a).Restores) : (x >>= f).Restores := by
  intro m
  have hfirst := hx m
  simp only [Eval.after,Bind.bind,EStateM.bind] at hfirst ⊢
  split at hfirst
  next a m₁ heq =>
    simp only [heq]
    exact hfirst.trans (hf a m₁)
  next halt m₁ heq =>
    simp only [heq]
    exact hfirst

theorem note (e : Event) : (note e).Restores := of_ok (fun _ => rfl) fun m => .note m e

theorem raise (e : Error) : (raise e : Eval α).Restores :=
  of_error (fun _ => rfl) fun m => .note m (.errorCreated e)

theorem stop (e : Error) : (stop e : Eval α).Restores := of_error (fun _ => rfl) .refl

theorem exhausted : (exhausted : Eval α).Restores := of_error (fun _ => rfl) .refl

theorem changeHeap {change : Heap → Heap} (hgrows : ∀ h : Heap, h.Grows (change h)) :
    (changeHeap change).Restores :=
  of_ok (fun _ => rfl) fun m => .reheap (hgrows m.heap)

theorem allocate {add : Heap → α × Heap} (hgrows : ∀ h : Heap, h.Grows (add h).2) :
    (allocate add).Restores :=
  of_ok (fun _ => rfl) fun m => .reheap (hgrows m.heap)

theorem define (name : String) (v : Value) : (define name v).Restores :=
  bind get fun m => changeHeap fun h => .define h m.scope name v

theorem inScope (hx : x.Restores) (scope : ScopeId) : (inScope scope x).Restores := by
  intro m
  obtain ⟨⟨hdistances,hlimit,hfails⟩,-,hdepth,hheap⟩ := hx { m with scope := scope }
  rw [after_inScope]
  exact ⟨⟨hdistances,hlimit,hfails⟩,rfl,hdepth,hheap⟩

theorem inNew (hx : x.Restores) (s : Scope) : (inNew s x).Restores :=
  bind (allocate fun h => .addScope h s) fun i => inScope hx i

theorem nested (hx : x.Restores) : (nested x).Restores := by
  intro m
  obtain ⟨⟨hdistances,hlimit,hfails⟩,hscope,hdepth,hheap⟩ := hx m.deeper
  rw [after_nested]
  exact ⟨⟨hdistances,hlimit,hfails⟩,hscope,congrArg (· - 1) hdepth,hheap⟩

theorem print (text : String) : (print text).Restores := by
  intro m
  obtain ⟨hlimit,hfails⟩ := m.output.write_keeps (text ++ "\n")
  rw [after_print]
  exact ⟨⟨rfl,hlimit,hfails⟩,rfl,rfl,.refl _⟩

theorem readClock : readClock.Restores :=
  of_ok (fun _ => rfl) fun _ => ⟨⟨rfl,rfl,rfl⟩,rfl,rfl,.refl _⟩

theorem setField (i : InstanceId) (name : String) (v : Value) : (Eval.changeHeap (·.setField i name v)).Restores :=
  changeHeap fun h => .setField h i name v

/-! ### Computations that are put together -/

theorem composes : Composes @Restores where
  pure := pure
  bind := bind
  get hf _ := bind get hf
  note := note
  raise := raise
  bindMethod f i := allocate fun h => .bind h f i

theorem assign (id : ExprId) (name : Token) (v : Value) : (assign id name v).Restores :=
  bind (composes.target id name) fun i => changeHeap fun h => .define h i name.lexeme v

theorem governs : Governs @Restores @Restores where
  toComposes := composes
  statement := composes
  weaken := id
  stop := stop
  exhausted := exhausted
  print := print
  readClock := readClock
  inNew := inNew
  nested := nested
  addScope s := allocate fun h => .addScope h s
  addFunction f := allocate fun h => .addFunction h f
  addClass k := allocate fun h => .addClass h k
  addInstance o := allocate fun h => .addInstance h o
  setField := setField
  assign := assign
  define := define
  bindClass name c := by
    refine bind get fun m => ?_
    cases m.heap.holder? m.scope name.lexeme with
    | none => exact raise _
    | some holder => exact changeHeap fun h => .define h holder name.lexeme _

end Eval.Restores

/-! ### Expressions and statements -/

/-- Expressions and statements come back to where they were started, with this budget. -/
structure Restoring (n : Nat) : Prop where
  expr : ∀ e, (evaluate n e).Restores
  stmt : ∀ s, (execute n s).Restores

theorem restoring (n : Nat) : Restoring n := ⟨(Restores.governs.all n).1,(Restores.governs.all n).2⟩

theorem Restoring.stmts {n : Nat} (h : Restoring n) (ss : List Stmt) : (executeEach (execute n) ss).Restores :=
  Restores.composes.executeEach h.stmt ss

theorem Eval.Restores.executeProgram (n : Nat) (ss : List Stmt) : (Machine.executeProgram n ss).Restores :=
  composes.executeProgram (restoring n).stmt ss

end Lox

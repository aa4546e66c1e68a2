import Lox.Proofs.Folding.Machine
import Lox.Proofs.Run.Agreement
import Lox.Proofs.Run.Frame

/-! A machine in the course of a run beside the same machine with another table of distances. For the programs of
the runs so far both tables have the same distances. -/
namespace Lox

open Eval

/-- The scope of the global names is there, and it is the outermost one. -/
structure Heap.Rooted (h : Heap) : Prop where
  inRange : 0 < h.scopes.size
  outermost : (h.getScope Heap.globals).enclosing = none

theorem Heap.Rooted.extends {h h' : Heap} (hroot : h.Rooted) (hh : h.Extends h') : h'.Rooted :=
  ⟨Nat.lt_of_lt_of_le hroot.inRange hh.scopes,(hh.enclosing Heap.globals hroot.inRange).trans hroot.outermost⟩

/-! ### Machines in the course of a run -/

/-- The second machine comes later in a run: the heap has been extended, and the distances are the same. -/
structure Machine.Leads (m m' : Machine) : Prop where
  heap : m.heap.Extends m'.heap
  distances : m'.distances = m.distances

section

variable {r : Run} {w w' : Work} {m m' m'' : Machine} {n : Nat}

theorem Machine.Leads.refl (m : Machine) : m.Leads m := ⟨.refl _,rfl⟩

theorem Machine.Leads.trans (a : m.Leads m') (b : m'.Leads m'') : m.Leads m'' :=
  ⟨a.heap.trans b.heap,b.distances.trans a.distances⟩

theorem Eval.Frames.leads {α : Type} {x : Eval α} {a : α} {site : ScopeId → Option ScopeId} (hx : x.Frames site)
    (h : x m = .ok a m') : m.Leads m' := by
  have hframed := hx.framed m
  have hrestores := hx.restores m
  rw [Eval.after,h] at hframed hrestores
  exact ⟨hframed.toExtends,hrestores.distances⟩

theorem Framing.expr_ok {e : Expr} {v : Value} (h : evaluate n e m = .ok v m') : m.Leads m' :=
  ((framing n).expr (fun _ => none) e).leads h

theorem Framing.stmt_ok {s : Stmt} {flow : Flow} (h : execute n s m = .ok flow m') : m.Leads m' :=
  ((framing n).stmt s).leads h

theorem Framing.exprs_ok {es : List Expr} {vs : List Value} (h : evaluateEach (evaluate n) es m = .ok vs m') :
    m.Leads m' :=
  (Frames.evaluateEach ((framing n).expr fun _ => none) es).leads h

/-- Work is started on a machine that the one in front of the work around it leads to. -/
theorem Starts.leads (h : Starts w m w' m') : m.Leads m' := by
  cases h with
  | binary_right he | logical_right he _ | ternary_true he _ | ternary_false he _ | arguments he
  | get_method he _ | set_value he | exprs_tail he | branch_then he _ | branch_else he _
  | loop_body he _ => exact Framing.expr_ok he
  | class_derived he =>
    have hparent := Framing.expr_ok he
    exact ⟨hparent.heap,hparent.distances⟩
  | loop_again he _ hs => exact (Framing.expr_ok he).trans (Framing.stmt_ok hs)
  | stmts_tail hs | program_tail hs => exact Framing.stmt_ok hs
  | invoke he hes hf hdepth =>
    have harguments := (Framing.expr_ok he).trans (Framing.exprs_ok hes)
    exact ⟨harguments.heap,harguments.distances⟩
  | block | body => exact ⟨.addScope _ _,rfl⟩
  | initializer => exact ⟨.of_eq rfl rfl,rfl⟩
  | @construction _ c =>
    have hmade : m.heap.Extends (m.constructing c).heap := .of_eq rfl rfl
    exact ⟨hmade.trans (@Heap.Framed.bind none _ _ _).toExtends,rfl⟩
  | _ => exact ⟨.refl _,rfl⟩

theorem Visits.leads (h : Visits r w m) : r.machine.Leads m := by
  induction h with
  | start => exact .refl _
  | step _ hs ih => exact ih.trans hs.leads

end

/-! ### Heaps beside themselves -/

namespace HeapFold

def alone (h : Heap) : HeapFold := ⟨fun _ => false,fun i => i,h,h⟩

variable {runs : List Run} {τ : Tables} {h : Heap}

/-- All scopes are kept. -/
theorem follows_alone (hroot : h.Rooted) {frames : List Frame} {i : ScopeId} (hchain : Chain runs h frames i) :
    (alone h).Follows [] i := by
  induction hchain with
  | nil => exact .root hroot.inRange rfl hroot.outermost hroot.outermost
  | cons hj hk _ _ _ ih => exact .kept hj rfl rfl hk hk ih

section

variable (hroot : h.Rooted) (hsame : ∀ r ∈ runs, τ.SameFor (places r.program)) {f : FunctionId} {r : Run}
  {c : Context} {context : FunctionContext}
include hroot hsame

theorem closes_alone (hf : f.index < h.functions.size) (hcloses : Lox.Closes runs h (h.getFunction f) r c context) :
    (alone h).Closes τ [] f := by
  have hpart : τ.SameFor (Stmt.functionOccurrences c.sites (h.getFunction f).declaration) :=
    fun o ho => hsame r hcloses.run o (hcloses.part.covered.occurrences ho)
  exact ⟨hf,rfl,rfl,[],follows_alone hroot hcloses.chain,.refl (by simp) _ hpart⟩

theorem method_alone (hf : f.index < h.functions.size) (hunbound : Unbound runs h (h.getFunction f) r c context) :
    (alone h).Closes τ [false] f := by
  have hpart : τ.SameFor (Stmt.functionOccurrences (c.receiving (h.getFunction f).declaration).sites
      (h.getFunction f).declaration) :=
    fun o ho => hsame r hunbound.run o (hunbound.part.covered.occurrences ho)
  exact ⟨hf,rfl,rfl,[],follows_alone hroot hunbound.chain,.refl (by simp) _ hpart⟩

theorem knows_alone {v : Value} (hv : Valid runs h v) : (alone h).Knows τ v := by
  cases v with
  | function f =>
    obtain ⟨hf,r,c,context,hcloses⟩ := hv
    exact closes_alone hroot hsame hf hcloses
  | _ => trivial

theorem sound_alone (hgood : Good runs h) : (alone h).Sound τ where
  functions := rfl
  classes := rfl
  instances := rfl
  root := hroot.inRange
  outermost := hroot.outermost
  outermost_right := hroot.outermost
  global := ⟨rfl,rfl⟩
  inRange _ hi := hi
  apart _ _ _ _ _ _ heq := heq
  bindings _ _ _ := rfl
  hollow _ _ hspare := absurd hspare Bool.false_ne_true
  bound i name v hv := knows_alone hroot hsame ((hgood.scope i).valid name v hv)
  field i name v hv := knows_alone hroot hsame (hgood.field i name v hv)
  method k name f hf := by
    obtain ⟨hlt,r,c,context,hunbound⟩ := hgood.method k name f hf
    exact method_alone hroot hsame hlt hunbound

end
end HeapFold

/-- The machine beside the one that runs with another table. -/
def MachineFold.start (m : Machine) (d : Distances) : MachineFold :=
  ⟨fun _ => false,fun i => i,m,{ m with distances := d }⟩

theorem MachineFold.start_at {runs : List Run} {c : Context} {m : Machine} {d : Distances} (hat : Lox.At runs c m)
    (hroot : m.heap.Rooted) (hsame : ∀ r ∈ runs, Tables.SameFor ⟨m.distances,d⟩ (places r.program)) :
    (start m d).At ⟨m.distances,d⟩ [] where
  heap := HeapFold.sound_alone hroot hsame hat.good
  left := rfl
  right := rfl
  scope := rfl
  follows := HeapFold.follows_alone hroot hat.chain
  depth := rfl
  output := rfl
  clock := rfl
  log := rfl

/-! ### Two machines after the same work -/

/-- Two machines that have come from `m`, the second one with another table of distances. They show the same, and
the scopes that were there before have the same names with the same values; the first machine has bound no new
names in them. They are at the same point, so that the programs there are go on to do the same. -/
structure Machine.Beside (m left right : Machine) : Prop where
  framed : m.Framed left
  scope : right.scope = left.scope
  bindings : ∀ j, j.index < m.heap.scopes.size →
    (right.heap.getScope j).bindings = (left.heap.getScope j).bindings
  classes : right.heap.classes = left.heap.classes
  instances : right.heap.instances = left.heap.instances
  depth : right.depth = left.depth
  output : right.output = left.output
  clock : right.clock = left.clock
  log : right.log = left.log
  point : ∃ t : MachineFold, t.left = left ∧ t.right = right ∧ t.At ⟨left.distances,right.distances⟩ []

/-- The same outcome, with machines that stand beside each other. -/
inductive Machine.SameEnd (m : Machine) :
    EStateM.Result Halt Machine Flow → EStateM.Result Halt Machine Flow → Prop
  | ok {flow left right} (h : m.Beside left right) : SameEnd m (.ok flow left) (.ok flow right)
  | error {halt left right} (h : m.Beside left right) : SameEnd m (.error halt left) (.error halt right)

/-- The computation comes to its end with its budget. -/
def Eval.Decided {α : Type} (x : Eval α) (m : Machine) : Prop := ∀ m', x m ≠ .error .exhausted m'

section

variable {m : Machine} {τ : Tables} {u : MachineFold} {d : Distances}

theorem MachineFold.At.beside (hu : u.At τ []) (hlater : (start m d).Later u)
    (hinside : m.scope.index < m.heap.scopes.size) (hframed : m.Framed u.left) : m.Beside u.left u.right := by
  have hplace (j : ScopeId) (hj : j.index < m.heap.scopes.size) : u.heap.place j = j := hlater.heap.place j hj
  have hspare (j : ScopeId) (hj : j.index < m.heap.scopes.size) : u.heap.spare j = false := hlater.heap.spare j hj
  refine
    { framed := hframed
      scope := ?_
      bindings := fun j hj => ?_
      classes := hu.heap.classes
      instances := hu.heap.instances
      depth := hu.depth
      output := hu.output
      clock := hu.clock
      log := hu.log
      point := ⟨u,rfl,rfl,?_⟩ }
  · rw [hu.scope,hframed.scope]
    exact hplace _ hinside
  · have hbindings := hu.heap.bindings j (Nat.lt_of_lt_of_le hj hframed.scopes) (hspare j hj)
    rwa [hplace j hj] at hbindings
  · rw [hu.left,hu.right]
    exact hu

theorem MachineFold.Ends.same {Q : HeapFold → Flow → Prop} {x : Eval Flow}
    {y : EStateM.Result Halt Machine Flow} (h : (start m d).Ends τ [] Q (x m) y)
    (hinside : m.scope.index < m.heap.scopes.size) (hframed : m.Framed (x.after m))
    (hplaced : ∀ fault m', x m = .error (.error (.internal fault)) m' → ¬fault.Misplaced) : m.SameEnd (x m) y := by
  rw [Eval.after] at hframed
  generalize x m = result at h hframed hplaced
  cases h with
  | ok u hu hlater _ => exact .ok (hu.beside hlater hinside hframed)
  | error u hu hlater => exact .error (hu.beside hlater hinside hframed)
  | misplaced hfault => exact absurd hfault (hplaced _ _ rfl)

end

theorem Machine.SameEnd.exhausted {m : Machine} {x : EStateM.Result Halt Machine Flow} {m₁ : Machine}
    (h : m.SameEnd x (.error .exhausted m₁)) : ∃ m₂, x = .error .exhausted m₂ := by
  cases h with
  | error => exact ⟨_,rfl⟩

end Lox

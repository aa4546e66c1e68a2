import Lox.Proofs.Folding.Call
import Lox.Proofs.Renaming.Evaluation

/-! Expressions and statements do the same where there are more scopes around. -/
namespace Lox

/-- Statements do the same. -/
def Tables.Performs (τ : Tables) (execute : Stmt → Eval Flow) : Prop :=
  ∀ {flags : List Bool} {s s' : Stmt} {t : MachineFold}, s.Folds τ flags s' → t.At τ flags →
    Eval.Tracks τ flags (HeapFold.KnowsFlow τ) (execute s) (execute s') t

variable {τ : Tables} {flags : List Bool} {t : MachineFold} {tok : Token} {v : Value} {n : Nat}

/-- A value that is not a function. -/
theorem HeapFold.Knows.of_plain (τ : Tables) (p : HeapFold) (hv : ∀ f, v ≠ .function f) : p.Knows τ v := by
  cases v with
  | function f => exact absurd rfl (hv f)
  | _ => trivial

theorem HeapFold.knows_literal (τ : Tables) (p : HeapFold) (l : Literal) : p.Knows τ l.value := by
  cases l <;> trivial

namespace Eval.Tracks

/-- An operation that does not look at the machine, and does not make a function. -/
theorem outcome (ht : t.At τ flags) {r : Except Error Value} (hr : ∀ a f, r = .ok a → a ≠ .function f) :
    Tracks τ flags (HeapFold.Knows τ) (outcome r) (outcome r) t := by
  cases r with
  | ok a => exact pure ht (.of_plain τ _ fun f => hr a f rfl)
  | error e => exact raise ht e

/-! ### Sequences and loops -/

variable {evaluate : Expr → Eval Value} {execute : Stmt → Eval Flow}

theorem evaluateEach (hevaluate : τ.Evaluates evaluate) {es es' : List Expr}
    (hes : Expr.ListFolds τ flags es es') (ht : t.At τ flags) :
    Tracks τ flags (fun p vs => ∀ v ∈ vs, p.Knows τ v) (evaluateEach evaluate es) (evaluateEach evaluate es') t := by
  induction es generalizing es' t with
  | nil =>
    cases hes
    exact pure ht (by simp)
  | cons e es ih =>
    cases hes with
    | cons he hes =>
      refine (hevaluate he ht).bind fun v u hu _ hv => ?_
      refine (ih hes hu).bind fun vs w hw hlater hvs => pure hw ?_
      exact List.forall_mem_cons.mpr ⟨hv.mono hu.heap hlater.heap,hvs⟩

theorem executeEach (hexecute : τ.Performs execute) : τ.Executes (executeEach execute) := by
  intro flags ss
  induction ss with
  | nil =>
    intro _ t hss ht
    cases hss
    exact pure ht trivial
  | cons s ss ih =>
    intro _ t hss ht
    cases hss with
    | cons hs hss =>
      refine (hexecute hs ht).bind fun flow u hu _ hflow => ?_
      cases flow with
      | normal => exact ih hss hu
      | returned v => exact pure hu hflow

/-- Loops whose conditions and whose rounds do the same. -/
theorem whileLoop {c c' : Eval Value} {b b' : Eval Flow}
    (hcondition : ∀ u : MachineFold, u.At τ flags → Tracks τ flags (HeapFold.Knows τ) c c' u)
    (hbody : ∀ u : MachineFold, u.At τ flags → Tracks τ flags (HeapFold.KnowsFlow τ) b b' u) (n : Nat)
    (ht : t.At τ flags) : Tracks τ flags (HeapFold.KnowsFlow τ) (whileLoop c b n) (whileLoop c' b' n) t := by
  induction n generalizing t with
  | zero => exact exhausted ht
  | succ n ih =>
    refine (hcondition t ht).bind fun v u hu _ _ => ?_
    split
    · refine (hbody u hu).bind fun flow w hw _ hflow => ?_
      cases flow with
      | normal => exact ih hw
      | returned v => exact pure hw hflow
    · exact pure hu trivial

/-! ### Declarations -/

theorem setField (ht : t.At τ flags) (hv : t.heap.Knows τ v) (i : InstanceId) (x : String) :
    Tracks τ flags (HeapFold.Knows τ) (changeHeap (·.setField i x v) >>= fun _ => Pure.pure v)
      (changeHeap (·.setField i x v) >>= fun _ => Pure.pure v) t := by
  have hgrows := HeapFold.Grows.setField t.heap i x v
  exact change ht (ht.heap.setField hv i x) hgrows rfl rfl fun u hu hlater _ =>
    pure hu (hv.mono ht.heap hlater.heap)

theorem introduce (ht : t.At τ flags) (hflag : flags.headD false = false) (tok : Token) (hv : t.heap.Knows τ v) :
    Tracks τ flags (HeapFold.KnowsFlow τ)
      (do Eval.note (.variableDefined tok.lexeme); Eval.define tok.lexeme v; return .normal)
      (do Eval.note (.variableDefined tok.lexeme); Eval.define tok.lexeme v; return .normal) t := by
  refine note _ ht fun u hu hlater _ => define hu hflag ?_ fun w hw _ _ => pure hw trivial
  exact hv.mono ht.heap hlater.heap

end Eval.Tracks

/-! ### Expressions and statements -/

open Eval

theorem Tables.Evaluates.succ (hevaluate : τ.Evaluates (evaluate n)) (hexecute : τ.Performs (execute n)) :
    τ.Evaluates (evaluate (n + 1)) := by
  intro flags e e' t he ht
  cases he with
  | literal => exact .pure ht (HeapFold.knows_literal _ _ _)
  | grouping he => exact hevaluate he ht
  | unary he => exact (hevaluate he ht).bind fun v u hu _ _ => .outcome hu fun _ _ ha => applyUnary_plain ha
  | binary ha hb =>
    refine (hevaluate ha ht).bind fun v u hu _ _ => ?_
    exact (hevaluate hb hu).bind fun w z hz _ _ => .outcome hz fun _ _ ha => applyBinary_plain ha
  | logical ha hb =>
    refine (hevaluate ha ht).bind fun v u hu _ hv => ?_
    split
    · exact .pure hu hv
    · exact hevaluate hb hu
  | ternary he ha hb =>
    refine (hevaluate he ht).bind fun v u hu _ _ => ?_
    split
    · exact hevaluate ha hu
    · exact hevaluate hb hu
  | «variable» hagree => exact .lookUp ht hagree
  | assign hagree he =>
    refine (hevaluate he ht).bind fun v u hu _ hv => ?_
    exact (Tracks.assign hu hagree hv).bind fun _ w hw hlater _ => .pure hw (hv.mono hu.heap hlater.heap)
  | call he hes =>
    refine (hevaluate he ht).bind fun v u hu _ hv => ?_
    refine (Tracks.evaluateEach hevaluate hes hu).bind fun vs w hw hlater hvs => ?_
    exact .call (Tracks.executeEach hexecute) hw (hv.mono hu.heap hlater.heap) _ hvs
  | get he => exact (hevaluate he ht).bind fun v u hu _ _ => .getProperty hu v _
  | set ha hb =>
    refine (hevaluate ha ht).bind fun v u hu _ _ => ?_
    cases v with
    | «instance» i => exact (hevaluate hb hu).bind fun w z hz _ hw => .setField hz hw i _
    | _ => exact .runtime hu _ _
  | this hagree => exact .lookUp ht hagree
  | super hagree => exact .superMethod ht hagree _ _

theorem Tables.Performs.succ (hevaluate : τ.Evaluates (evaluate n)) (hexecute : τ.Performs (execute n)) :
    τ.Performs (execute (n + 1)) := by
  intro flags s s' t hs ht
  cases hs with
  | expression he => exact (hevaluate he ht).bind fun _ u hu _ _ => .pure hu trivial
  | print he =>
    refine (hevaluate he ht).bind fun v u hu _ hv => .heap ?_
    rw [hu.display hv]
    exact (Tracks.print hu _).bind fun _ w hw _ _ => .pure hw trivial
  | var hflag he =>
    cases he with
    | none => exact .introduce ht hflag _ trivial
    | some he => exact (hevaluate he ht).bind fun v u hu _ hv => .introduce hu hflag _ hv
  | block hss =>
    refine .get ?_
    rw [ht.scope]
    exact .inNew ht ht.follows (by simp) fun u hu _ => Tracks.executeEach hexecute hss hu
  | branch he ha hb =>
    refine (hevaluate he ht).bind fun v u hu _ _ => ?_
    split
    · exact hexecute ha hu
    · cases hb with
      | none => exact .pure hu trivial
      | some hb => exact hexecute hb hu
  | loop he hs => exact .whileLoop (fun _ hu => hevaluate he hu) (fun _ hu => hexecute hs hu) n ht
  | @function _ d d' hflag hd =>
    rw [execute,execute,hd.name]
    refine .note _ ht fun u hu _ _ => .get ?_
    rw [hu.scope]
    let g : Function := ⟨d,u.left.scope,false⟩
    let g' : Function := ⟨d',u.place u.left.scope,false⟩
    have hsame : (u.right.heap.addFunction g').1 = (u.left.heap.addFunction g).1 :=
      congrArg FunctionId.mk hu.heap.functions
    refine .allocate hu (hu.heap.addFunction g g') (.addFunction u.heap g g') rfl rfl fun w hw _ hheap => ?_
    have hnew : w.heap.Knows τ (.function (u.left.heap.addFunction g).1) :=
      hheap ▸ hu.heap.closes_new rfl rfl hu.follows hd
    rw [hsame]
    exact .define hw hflag hnew fun z hz _ _ => .pure hz trivial
  | «return» he =>
    cases he with
    | none => exact .pure ht trivial
    | some he => exact (hevaluate he ht).bind fun v u hu _ hv => .pure hu hv
  | «class» hflag he hds =>
    refine .note _ ht fun u hu _ _ => ?_
    refine (Tracks.superclassOf hevaluate hu _ he).bind fun parent w hw _ hparent => ?_
    exact (Tracks.defineClass hw hflag _ parent (hparent ▸ hds)).bind fun _ z hz _ _ => .pure hz trivial

theorem Tables.evaluates_performs (τ : Tables) (n : Nat) : τ.Evaluates (evaluate n) ∧ τ.Performs (execute n) := by
  induction n with
  | zero => exact ⟨fun _ ht => .exhausted ht,fun _ ht => .exhausted ht⟩
  | succ n ih => exact ⟨Tables.Evaluates.succ ih.1 ih.2,Tables.Performs.succ ih.1 ih.2⟩

end Lox

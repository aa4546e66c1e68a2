import Lox.Proofs.Renaming.Call

/-! Expressions and statements do the same where a variable has another name. -/
namespace Lox

/-- Statements do the same. -/
def Renaming.Performs (ρ : Renaming) (execute : Stmt → Eval Flow) : Prop :=
  ∀ {flags : List Bool} {s s' : Stmt} {t : MachinePair}, s.Renamed ρ flags s' → t.At ρ flags →
    Eval.Mimics ρ flags (Flow.Known ρ) (execute s) (execute s') t

variable {ρ : Renaming} {flags : List Bool} {t : MachinePair} {tok tok' : Token} {v : Value} {n : Nat}

/-- A value that is not a function. -/
theorem HeapPair.Knows.of_plain (ρ : Renaming) (p : HeapPair) (hv : ∀ f, v ≠ .function f) : p.Knows ρ v := by
  cases v with
  | function f => exact absurd rfl (hv f)
  | _ => trivial

theorem HeapPair.knows_literal (ρ : Renaming) (p : HeapPair) (l : Literal) : p.Knows ρ l.value := by
  cases l <;> trivial

namespace Eval.Mimics

/-! ### Operators -/

/-- An operation that does not look at the machine, and does not make a function. -/
theorem outcome (ht : t.At ρ flags) {r : Except Error Value} (hr : ∀ a p, r = .ok a → HeapPair.Knows ρ p a) :
    Mimics ρ flags (HeapPair.Knows ρ) (outcome r) (outcome r) t := by
  cases r with
  | ok a => exact pure ht (hr a _ rfl)
  | error e => exact raise ht.toComparable .same

/-! ### Sequences and loops -/

variable {evaluate : Expr → Eval Value} {execute : Stmt → Eval Flow}

theorem evaluateEach (hevaluate : ρ.Evaluates evaluate) {es es' : List Expr}
    (hes : Expr.ListRenamed ρ flags es es') (ht : t.At ρ flags) :
    Mimics ρ flags (fun p vs => ∀ v ∈ vs, p.Knows ρ v) (evaluateEach evaluate es) (evaluateEach evaluate es') t := by
  induction es generalizing es' t with
  | nil =>
    cases hes
    exact pure ht (by simp)
  | cons e es ih =>
    cases hes with
    | cons he hes =>
      refine (hevaluate he ht).bind fun v u hu _ hv => ?_
      refine (ih hes hu).bind fun vs w hw hlater hvs => pure hw ?_
      exact List.forall_mem_cons.mpr ⟨hv.mono hu.heap hlater.heap,hvs⟩

theorem executeEach (hexecute : ρ.Performs execute) : ρ.Executes (executeEach execute) := by
  intro flags ss
  induction ss with
  | nil =>
    intro _ t hss ht
    cases hss
    exact pure ht trivial
  | cons s ss ih =>
    intro _ t hss ht
    cases hss with
    | cons hs hss =>
      refine (hexecute hs ht).bind fun flow u hu _ hflow => ?_
      cases flow with
      | normal => exact ih hss hu
      | returned v => exact pure hu hflow

theorem whileLoop (hevaluate : ρ.Evaluates evaluate) (hexecute : ρ.Performs execute) {e e' : Expr} {s s' : Stmt}
    (he : e.Renamed ρ flags e') (hs : s.Renamed ρ flags s') (n : Nat) (ht : t.At ρ flags) :
    Mimics ρ flags (Flow.Known ρ) (whileLoop (evaluate e) (execute s) n) (whileLoop (evaluate e') (execute s') n)
      t := by
  induction n generalizing t with
  | zero => exact exhausted ht.toComparable
  | succ n ih =>
    refine (hevaluate he ht).bind fun v u hu _ _ => ?_
    split
    · refine (hexecute hs hu).bind fun flow w hw _ hflow => ?_
      cases flow with
      | normal => exact ih hw
      | returned v => exact pure hw hflow
    · exact pure hu trivial

/-! ### Declarations -/

theorem setField (ht : t.At ρ flags) (hv : t.heap.Knows ρ v) (i : InstanceId) (x : String) :
    Mimics ρ flags (HeapPair.Knows ρ) (changeHeap (·.setField i x v) >>= fun _ => Pure.pure v)
      (changeHeap (·.setField i x v) >>= fun _ => Pure.pure v) t := by
  have hgrows := HeapPair.Grows.setField t.heap i x v
  exact change ht (ht.heap.setField hv i x) hgrows rfl rfl fun u hu hlater _ =>
    pure hu (hv.mono ht.heap hlater.heap)

theorem introduce (ht : t.At ρ flags) (htok : ρ.Gives flags (flags.headD false) tok tok')
    (hv : t.heap.Knows ρ v) : Mimics ρ flags (Flow.Known ρ)
      (do Eval.note (.variableDefined tok.lexeme); Eval.define tok.lexeme v; return .normal)
      (do Eval.note (.variableDefined tok'.lexeme); Eval.define tok'.lexeme v; return .normal) t := by
  refine note ht fun u hu hlater _ => define hu htok ?_ fun w hw _ _ => pure hw trivial
  exact (hv.mono ht.heap hlater.heap).mono hu.heap (.define _ _ _ _ _)

end Eval.Mimics

/-! ### Expressions and statements -/

open Eval

theorem applyUnary_plain {a : Value} {f : FunctionId} (h : applyUnary tok v = .ok a) : a ≠ .function f := by
  rintro rfl
  simp only [applyUnary] at h
  split at h
  · split at h <;> cases h
  · cases h
  · cases h

theorem onNumbers_plain {w : Value} {f : FunctionId} {op : Float → Float → Except Error Value}
    (hop : ∀ x y, op x y ≠ .ok (.function f)) : onNumbers tok v w op ≠ .ok (.function f) := by
  intro h
  simp only [onNumbers] at h
  split at h
  · exact hop _ _ h
  · cases h

/-- Operators do not make functions. -/
theorem applyBinary_plain {a w : Value} {f : FunctionId} (h : applyBinary tok v w = .ok a) : a ≠ .function f := by
  rintro rfl
  simp only [applyBinary] at h
  split at h
  case h_1 => split at h <;> cases h
  case h_4 =>
    refine onNumbers_plain (fun x y hxy => ?_) h
    split at hxy <;> cases hxy
  case h_9 | h_10 | h_11 => cases h
  all_goals
    refine onNumbers_plain (fun x y hxy => ?_) h
    cases hxy

theorem Renaming.Evaluates.succ (hρ : ρ.Apt) (hevaluate : ρ.Evaluates (evaluate n))
    (hexecute : ρ.Performs (execute n)) : ρ.Evaluates (evaluate (n + 1)) := by
  intro flags e e' t he ht
  cases he with
  | literal => exact .pure ht (HeapPair.knows_literal _ _ _)
  | grouping he => exact hevaluate he ht
  | unary he =>
    exact (hevaluate he ht).bind fun v u hu _ _ => .outcome hu fun _ p ha => .of_plain ρ p fun _ => applyUnary_plain ha
  | binary ha hb =>
    refine (hevaluate ha ht).bind fun v u hu _ _ => ?_
    exact (hevaluate hb hu).bind fun w z hz _ _ => .outcome hz fun _ p ha => .of_plain ρ p fun _ => applyBinary_plain ha
  | logical ha hb =>
    refine (hevaluate ha ht).bind fun v u hu _ hv => ?_
    split
    · exact .pure hu hv
    · exact hevaluate hb hu
  | ternary he ha hb =>
    refine (hevaluate he ht).bind fun v u hu _ _ => ?_
    split
    · exact hevaluate ha hu
    · exact hevaluate hb hu
  | «variable» htok => exact .lookUp ht htok
  | assign htok he =>
    refine (hevaluate he ht).bind fun v u hu _ hv => ?_
    exact (Mimics.assign hu htok hv).bind fun _ w hw hlater _ => .pure hw (hv.mono hu.heap hlater.heap)
  | call he hes =>
    refine (hevaluate he ht).bind fun v u hu _ hv => ?_
    refine (Mimics.evaluateEach hevaluate hes hu).bind fun vs w hw hlater hvs => ?_
    exact .call hρ (Mimics.executeEach hexecute) hw (hv.mono hu.heap hlater.heap) _ hvs
  | get he => exact (hevaluate he ht).bind fun v u hu _ _ => .getProperty hu v _
  | set ha hb =>
    refine (hevaluate ha ht).bind fun v u hu _ _ => ?_
    cases v with
    | «instance» i => exact (hevaluate hb hu).bind fun w z hz _ hw => .setField hz hw i _
    | _ => exact .runtime hu.toComparable _ rfl
  | this htok => exact .lookUp ht htok
  | super _ => exact .superMethod hρ ht _ _ _

theorem Renaming.Performs.succ (hevaluate : ρ.Evaluates (evaluate n))
    (hexecute : ρ.Performs (execute n)) : ρ.Performs (execute (n + 1)) := by
  intro flags s s' t hs ht
  cases hs with
  | expression he => exact (hevaluate he ht).bind fun _ u hu _ _ => .pure hu trivial
  | print he =>
    refine (hevaluate he ht).bind fun v u hu _ hv => .heap ?_
    rw [hu.display hv]
    exact (Mimics.print hu _).bind fun _ w hw _ _ => .pure hw trivial
  | var htok he =>
    cases he with
    | none => exact .introduce ht htok trivial
    | some he => exact (hevaluate he ht).bind fun v u hu _ hv => .introduce hu htok hv
  | block hss =>
    refine .get ?_
    rw [ht.scope]
    exact .inNew ht rfl rfl ht.inRange ht.follows .empty (by simp) fun u hu _ =>
      Mimics.executeEach hexecute hss hu
  | branch he ha hb =>
    refine (hevaluate he ht).bind fun v u hu _ _ => ?_
    split
    · exact hexecute ha hu
    · cases hb with
      | none => exact .pure hu trivial
      | some hb => exact hexecute hb hu
  | loop he hs => exact .whileLoop hevaluate hexecute he hs n ht
  | @function _ d d' htok hd =>
    refine .note ht fun u hu _ _ => .get ?_
    rw [hu.scope]
    have hgrows := HeapPair.Grows.addFunction u.heap ⟨d,u.left.scope,false⟩ ⟨d',u.left.scope,false⟩
    refine .allocate hu (hu.heap.addFunction _ _) hgrows rfl rfl (congrArg FunctionId.mk hu.heap.functions) ?_
    intro w hw _ hheap
    have hnew : w.heap.Knows ρ (.function ⟨u.left.heap.functions.size⟩) :=
      hheap ▸ hu.heap.closes_new rfl rfl hu.inRange hu.follows hd
    rw [hd.name]
    exact .define hw htok (hnew.mono hw.heap (.define _ _ _ _ _)) fun z hz _ _ => .pure hz trivial
  | «return» he =>
    cases he with
    | none => exact .pure ht trivial
    | some he => exact (hevaluate he ht).bind fun v u hu _ hv => .pure hu hv
  | «class» htok he hds =>
    refine .note ht fun u hu _ _ => ?_
    refine (Mimics.superclassOf hevaluate hu _ he).bind fun parent w hw _ hparent => ?_
    exact (Mimics.defineClass hw htok parent (hparent ▸ hds)).bind fun _ z hz _ _ => .pure hz trivial

theorem Renaming.evaluates_performs (hρ : ρ.Apt) (n : Nat) : ρ.Evaluates (evaluate n) ∧ ρ.Performs (execute n) := by
  induction n with
  | zero => exact ⟨fun _ ht => .exhausted ht.toComparable,fun _ ht => .exhausted ht.toComparable⟩
  | succ n ih => exact ⟨Renaming.Evaluates.succ hρ ih.1 ih.2,Renaming.Performs.succ ih.1 ih.2⟩

end Lox

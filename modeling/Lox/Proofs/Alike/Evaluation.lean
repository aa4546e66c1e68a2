import Lox.Proofs.Alike.Call

/-! Expressions and statements that are alike do the same on machines that correspond. -/
namespace Lox

/-- Statements that are alike do the same. -/
def Correspondence.Performs (c : Correspondence) (execute : Stmt → Eval Flow) : Prop :=
  ∀ {s s' : Stmt} {m m' : Machine}, s.Alike c.like s' → m.Alike c m' →
    Eval.Mirrors c (Flow.Alike c) (execute s) m (execute s') m'

@[simp] theorem Correspondence.value_literal (c : Correspondence) (l : Literal) :
    c.value l.value = l.value := by
  cases l <;> rfl

theorem Correspondence.knows_literal (c : Correspondence) (h : Heap) (l : Literal) :
    c.Knows h l.value := by
  cases l <;> trivial

namespace Eval.Mirrors

variable {c : Correspondence} {m m' : Machine} {t t' : Token} {v w : Value}

/-! ### Operators -/

theorem onNumbers {f f' : Float → Float → Except Error Value} (hm : m.Alike c m') (ht : c.like.token t t')
    (hf : ∀ x y, Mirrors c c.Stands (outcome (f x y)) m (outcome (f' x y)) m') :
    Mirrors c c.Stands (outcome (onNumbers t v w f)) m
      (outcome (onNumbers t' (c.value v) (c.value w) f')) m' := by
  cases v <;> cases w
  case number.number => exact hf _ _
  all_goals exact raise hm (.runtime ht)

theorem applyUnary (hm : m.Alike c m') (ht : c.like.token t t') :
    Mirrors c c.Stands (outcome (applyUnary t v)) m (outcome (applyUnary t' (c.value v))) m' := by
  simp only [Lox.applyUnary,c.like.kind ht,c.like.lexeme ht,c.value_truthy]
  split
  · cases v
    case number => exact pure hm ⟨rfl,trivial⟩
    all_goals exact raise hm (.runtime ht)
  · exact pure hm ⟨rfl,trivial⟩
  · exact raise hm .internal

theorem applyBinary (hm : m.Alike c m') (ht : c.like.token t t') :
    Mirrors c c.Stands (outcome (applyBinary t v w)) m
      (outcome (applyBinary t' (c.value v) (c.value w))) m' := by
  simp only [Lox.applyBinary,c.like.kind ht,c.like.lexeme ht,c.value_same]
  split
  case h_1 =>
    cases v <;> cases w
    case number.number => exact pure hm ⟨rfl,trivial⟩
    case string.string => exact pure hm ⟨rfl,trivial⟩
    all_goals exact raise hm (.runtime ht)
  case h_4 =>
    refine onNumbers hm ht fun x y => ?_
    split
    · exact raise hm (.runtime ht)
    · exact pure hm ⟨rfl,trivial⟩
  case h_9 => exact pure hm ⟨rfl,trivial⟩
  case h_10 => exact pure hm ⟨rfl,trivial⟩
  case h_11 => exact raise hm .internal
  all_goals exact onNumbers hm ht fun _ _ => pure hm ⟨rfl,trivial⟩

theorem shortCircuits (ht : c.like.token t t') :
    Lox.shortCircuits t' (c.value v) = Lox.shortCircuits t v := by
  simp only [Lox.shortCircuits,c.like.kind ht,c.value_truthy]

/-! ### Sequences and loops -/

variable {evaluate : Expr → Eval Value} {execute : Stmt → Eval Flow}

theorem evaluateEach (hevaluate : c.Evaluates evaluate) {es es' : List Expr}
    (hes : Expr.ListAlike c.like es es') (hm : m.Alike c m') :
    Mirrors c (fun h vs vs' => vs' = vs.map c.value ∧ ∀ v ∈ vs, c.Knows h v)
      (evaluateEach evaluate es) m (evaluateEach evaluate es') m' := by
  induction es generalizing es' m m' with
  | nil =>
    cases hes
    exact pure hm ⟨rfl,by simp⟩
  | cons e es ih =>
    cases hes with
    | cons he hes =>
      refine (hevaluate he hm).bind fun v _ m₁ m₁' hm₁ _ hv => ?_
      refine (ih hes hm₁).bind fun vs _ m₂ m₂' hm₂ hresumes hvs => ?_
      obtain ⟨rfl,hknows⟩ := hv
      obtain ⟨rfl,hall⟩ := hvs
      exact pure hm₂ ⟨rfl,List.forall_mem_cons.mpr ⟨hknows.mono hresumes.heap,hall⟩⟩

theorem executeEach (hexecute : c.Performs execute) : c.Executes (executeEach execute) := by
  intro ss
  induction ss with
  | nil =>
    intro _ m m' hss hm
    cases hss
    exact pure hm .normal
  | cons s ss ih =>
    intro _ m m' hss hm
    cases hss with
    | cons hs hss =>
      refine (hexecute hs hm).bind fun flow flow' m₁ m₁' hm₁ _ hflow => ?_
      cases hflow with
      | normal => exact ih hss hm₁
      | returned hv => exact pure hm₁ (.returned hv)

theorem whileLoop (hevaluate : c.Evaluates evaluate) (hexecute : c.Performs execute) {e e' : Expr}
    {s s' : Stmt} (he : e.Alike c.like e') (hs : s.Alike c.like s') (n : Nat) (hm : m.Alike c m') :
    Mirrors c (Flow.Alike c) (whileLoop (evaluate e) (execute s) n) m
      (whileLoop (evaluate e') (execute s') n) m' := by
  induction n generalizing m m' with
  | zero => exact exhausted hm
  | succ n ih =>
    refine (hevaluate he hm).bind fun v _ m₁ m₁' hm₁ _ hv => ?_
    obtain ⟨rfl,-⟩ := hv
    rw [c.value_truthy]
    split
    · refine (hexecute hs hm₁).bind fun flow flow' m₂ m₂' hm₂ _ hflow => ?_
      cases hflow with
      | normal => exact ih hm₂
      | returned hv => exact pure hm₂ (.returned hv)
    · exact pure hm₁ .normal

/-! ### Expressions and statements -/

theorem setField {i : InstanceId} (hm : m.Alike c m') (ht : c.like.token t t')
    (hi : i.index < m.heap.instances.size) (hv : c.Knows m.heap v) :
    Mirrors c c.Stands (changeHeap (·.setField i t.lexeme v) >>= fun _ => Pure.pure v) m
      (changeHeap (·.setField (c.instance i) t'.lexeme (c.value v)) >>= fun _ => Pure.pure (c.value v)) m' := by
  rw [c.like.lexeme ht]
  have hgrows := Heap.Grows.setField m.heap i t.lexeme v
  refine change hm (hm.heap.setField hi t.lexeme hv) hgrows fun m₁ m₁' hm₁ hresumes => ?_
  exact pure hm₁ ⟨rfl,hv.mono hresumes.heap⟩

theorem introduce (hm : m.Alike c m') (ht : c.like.token t t') (hv : c.Knows m.heap v) :
    Mirrors c (Flow.Alike c)
      (do Eval.note (.variableDefined t.lexeme); Eval.define t.lexeme v; return .normal) m
      (do Eval.note (.variableDefined t'.lexeme); Eval.define t'.lexeme (c.value v); return .normal) m' := by
  refine note hm fun m₁ m₁' hm₁ hresumes _ _ => ?_
  refine define hm₁ (c.like.lexeme ht) (hv.mono hresumes.heap) fun m₂ m₂' hm₂ _ _ _ => ?_
  exact pure hm₂ .normal

end Eval.Mirrors

open Eval

variable {c : Correspondence} {n : Nat}

theorem Correspondence.Evaluates.succ (hevaluate : c.Evaluates (evaluate n))
    (hexecute : c.Performs (execute n)) : c.Evaluates (evaluate (n + 1)) := by
  intro e e' m m' he hm
  cases he with
  | literal => exact .pure hm ⟨(c.value_literal _).symm,c.knows_literal _ _⟩
  | grouping he => exact hevaluate he hm
  | unary ht he =>
    refine (hevaluate he hm).bind fun v _ m₁ m₁' hm₁ _ hv => ?_
    obtain ⟨rfl,-⟩ := hv
    exact .applyUnary hm₁ ht
  | binary ha ht hb =>
    refine (hevaluate ha hm).bind fun v _ m₁ m₁' hm₁ _ hv => ?_
    refine (hevaluate hb hm₁).bind fun w _ m₂ m₂' hm₂ _ hw => ?_
    obtain ⟨rfl,-⟩ := hv
    obtain ⟨rfl,-⟩ := hw
    exact .applyBinary hm₂ ht
  | logical ha ht hb =>
    refine (hevaluate ha hm).bind fun v _ m₁ m₁' hm₁ _ hv => ?_
    rw [hv.value,Mirrors.shortCircuits ht]
    split
    · exact .pure hm₁ ⟨rfl,hv.knows⟩
    · exact hevaluate hb hm₁
  | ternary he ha hb =>
    refine (hevaluate he hm).bind fun v _ m₁ m₁' hm₁ _ hv => ?_
    rw [hv.value,c.value_truthy]
    split
    · exact hevaluate ha hm₁
    · exact hevaluate hb hm₁
  | «variable» hi ht => exact .lookUp hm hi ht
  | assign hi ht he =>
    refine (hevaluate he hm).bind fun v _ m₁ m₁' hm₁ _ hv => ?_
    obtain ⟨rfl,hknows⟩ := hv
    refine (Mirrors.assign hm₁ hi ht hknows).bind fun _ _ m₂ m₂' hm₂ hresumes _ => ?_
    exact .pure hm₂ ⟨rfl,hknows.mono hresumes.heap⟩
  | call he ht hes =>
    refine (hevaluate he hm).bind fun v _ m₁ m₁' hm₁ _ hv => ?_
    refine (Mirrors.evaluateEach hevaluate hes hm₁).bind fun vs _ m₂ m₂' hm₂ hresumes hvs => ?_
    obtain ⟨rfl,hknows⟩ := hv
    obtain ⟨rfl,hall⟩ := hvs
    exact .call (Mirrors.executeEach hexecute) hm₂ (hknows.mono hresumes.heap) ht hall
  | get he ht =>
    refine (hevaluate he hm).bind fun v _ m₁ m₁' hm₁ _ hv => ?_
    obtain ⟨rfl,hknows⟩ := hv
    exact .getProperty hm₁ hknows ht
  | set ha ht hb =>
    refine (hevaluate ha hm).bind fun v _ m₁ m₁' hm₁ _ hv => ?_
    obtain ⟨rfl,hknows⟩ := hv
    cases v with
    | «instance» i =>
      refine (hevaluate hb hm₁).bind fun w _ m₂ m₂' hm₂ hresumes hw => ?_
      obtain ⟨rfl,hstored⟩ := hw
      exact .setField hm₂ ht (Nat.lt_of_lt_of_le hknows hresumes.heap.instances) hstored
    | _ => exact .runtime hm₁ _ ht
  | this hi ht => exact .lookUp hm hi ht
  | super hi ht hu => exact .superMethod hm hi hu

theorem Correspondence.Performs.succ (hevaluate : c.Evaluates (evaluate n))
    (hexecute : c.Performs (execute n)) : c.Performs (execute (n + 1)) := by
  intro s s' m m' hs hm
  cases hs with
  | expression he =>
    exact (hevaluate he hm).bind fun _ _ m₁ m₁' hm₁ _ _ => .pure hm₁ .normal
  | print he =>
    refine (hevaluate he hm).bind fun v _ m₁ m₁' hm₁ _ hv => .heap ?_
    obtain ⟨rfl,hknows⟩ := hv
    rw [hm₁.heap.display hknows]
    exact (Mirrors.print hm₁ _).bind fun _ _ m₂ m₂' hm₂ _ _ => .pure hm₂ .normal
  | var ht he =>
    cases he with
    | none => exact .introduce hm ht trivial
    | some he =>
      refine (hevaluate he hm).bind fun v _ m₁ m₁' hm₁ _ hv => ?_
      obtain ⟨rfl,hknows⟩ := hv
      exact .introduce hm₁ ht hknows
  | block hs =>
    refine .get ?_
    rw [hm.scope]
    exact .inNew hm .empty fun m₁ m₁' hm₁ _ => Mirrors.executeEach hexecute hs hm₁
  | branch he ha hb =>
    refine (hevaluate he hm).bind fun v _ m₁ m₁' hm₁ _ hv => ?_
    rw [hv.value,c.value_truthy]
    split
    · exact hexecute ha hm₁
    · cases hb with
      | none => exact .pure hm₁ .normal
      | some hb => exact hexecute hb hm₁
  | loop he hs => exact .whileLoop hevaluate hexecute he hs n hm
  | @function d d' hd =>
    refine .note hm fun m₁ m₁' hm₁ _ _ _ => .get ?_
    rw [hm₁.scope]
    refine .allocate hm₁ (hm₁.heap.addFunction ⟨hd,rfl,rfl⟩) (.addFunction _ _) fun m₂ m₂' hm₂ _ _ => ?_
    have hnew : (m₁'.heap.addFunction ⟨d',c.scope m₁.scope,false⟩).1 =
        c.function (m₁.heap.addFunction ⟨d,m₁.scope,false⟩).1 := hm₁.heap.new_function
    rw [hnew]
    refine .define hm₂ (c.like.lexeme hd.name) trivial fun m₃ m₃' hm₃ _ _ _ => ?_
    exact .pure hm₃ .normal
  | «return» ht he =>
    cases he with
    | none => exact .pure hm (.returned ⟨rfl,trivial⟩)
    | some he =>
      exact (hevaluate he hm).bind fun _ _ m₁ m₁' hm₁ _ hv => .pure hm₁ (.returned hv)
  | «class» ht he hds =>
    refine .note hm fun m₁ m₁' hm₁ _ _ _ => ?_
    refine (Mirrors.superclassOf hevaluate hm₁ ht he).bind fun k _ m₂ m₂' hm₂ _ hk => ?_
    obtain ⟨rfl,hparent⟩ := hk
    refine (Mirrors.defineClass hm₂ ht hparent hds).bind fun _ _ m₃ m₃' hm₃ _ _ => ?_
    exact .pure hm₃ .normal

theorem Correspondence.evaluates_performs (c : Correspondence) (n : Nat) :
    c.Evaluates (evaluate n) ∧ c.Performs (execute n) := by
  induction n with
  | zero => exact ⟨fun _ hm => .exhausted hm,fun _ hm => .exhausted hm⟩
  | succ n ih => exact ⟨Correspondence.Evaluates.succ ih.1 ih.2,Correspondence.Performs.succ ih.1 ih.2⟩

end Lox

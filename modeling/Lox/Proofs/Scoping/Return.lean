import Lox.Proofs.Scoping.Covered

/-! Where `return` may stand in a program without scoping errors: only in functions. -/
namespace Lox

/-- The statement can return from the function around it. -/
inductive Stmt.Returns : Stmt → Prop
  | here {keyword value} : Returns (.return keyword value)
  | block {body b} (hb : b ∈ body) (h : b.Returns) : Returns (.block body)
  | then_branch {c s t} (h : s.Returns) : Returns (.branch c s t)
  | else_branch {c s t} (h : t.Returns) : Returns (.branch c s (some t))
  | loop {c s} (h : s.Returns) : Returns (.loop c s)

variable {program ss : List Stmt} {c : Context} {b : Stmt}

theorem StmtIn.return_inside {keyword : Token} {value : Option Expr} (haccepted : Accepted program)
    (h : StmtIn program c (.return keyword value)) : c.around.inFunction ≠ .none := by
  intro hnone
  obtain ⟨s,-,hfindings⟩ := h.covered.findings
  have hfail : (s.fail .returnOutsideFunction keyword).findings ⊆ findings program := by
    refine List.Subset.trans ?_ hfindings
    cases value with
    | none => simp [Scoping.stmt,hnone]
    | some e =>
      have hvalue : _ ⊆ (Scoping.expr c.around e (s.fail .returnOutsideFunction keyword)).findings :=
        Scoping.expr_findings e (s.fail .returnOutsideFunction keyword)
      simpa [Scoping.stmt,hnone] using hvalue
  exact haccepted.not_fail hfail

/-- Each statement of a list stands at a point of its own, in the same function. -/
theorem StmtsIn.mem (h : StmtsIn program c ss) (hinit : c.initializing = none) (hb : b ∈ ss) :
    ∃ k : Context, k.around = c.around ∧ k.initializing = none ∧ StmtIn program k b := by
  induction ss generalizing c with
  | nil => cases hb
  | cons s ss ih =>
    rcases List.mem_cons.mp hb with rfl | hb
    · exact ⟨c,rfl,hinit,h.cons.1⟩
    · obtain ⟨k,haround,hk⟩ := ih h.cons.2 ((Context.defineIf_initializing c _).trans hinit) hb
      exact ⟨k,haround.trans (Context.defineIf_around c _),hk⟩

/-- Only statements in functions return. -/
theorem StmtIn.returns_inside (haccepted : Accepted program) (hreturns : b.Returns) (h : StmtIn program c b)
    (hinit : c.initializing = none) : c.around.inFunction ≠ .none := by
  induction hreturns generalizing c with
  | here => exact h.return_inside haccepted
  | block hb _ ih =>
    obtain ⟨k,haround,hinit,hk⟩ := h.block.mem rfl hb
    have hinside := ih hk hinit
    rwa [haround] at hinside
  | then_branch _ ih => exact ih (h.branch hinit).2.1 hinit
  | else_branch _ ih => exact ih ((h.branch hinit).2.2 _ rfl) hinit
  | loop _ ih => exact ih (h.loop hinit).2 hinit

end Lox

import Lox.Proofs.Folding.Evaluation
import Lox.Proofs.Folding.Scoping
import Lox.Proofs.Loop.Clauses

/-! The statement that the parser makes of a `for` loop does what the clauses say. Its blocks are scopes that
have no names, except for the one of the initializer. -/
namespace Lox

open Eval

namespace ForClauses

/-- The body of the `while` loop. -/
def whole (c : ForClauses) : Stmt :=
  match c.increment with
  | none => c.body
  | some e => .block [c.body,.expression e]

/-- The `while` loop. -/
def plain (c : ForClauses) : Stmt := .loop (c.condition.getD (.literal (.boolean true))) c.whole

theorem desugared_of_none {c : ForClauses} (h : c.initializer = none) : c.desugared = c.plain := by
  rw [desugared,h]
  rfl

theorem desugared_of_some {c : ForClauses} {s : Stmt} (h : c.initializer = some s) :
    c.desugared = .block [s,c.plain] := by
  rw [desugared,h]
  rfl

/-- What is left for the parts of a loop, behind the statements that the parser has put around them. -/
def budgets (c : ForClauses) (n : Nat) : Budgets :=
  let plain := if c.initializer.isSome then n - 1 else n
  let body := if c.increment.isSome then plain - 2 else plain - 1
  ⟨n - 1,plain - 1,body,body - 1⟩

theorem budgets_le (c : ForClauses) (n : Nat) : (c.budgets n).Le ⟨n,n,n,n⟩ := by
  constructor <;> simp only [budgets] <;> repeat' split
  all_goals omega

theorem le_budgets (c : ForClauses) {k n : Nat} (h : k + 4 ≤ n) : Budgets.Le ⟨k,k,k,k⟩ (c.budgets n) := by
  constructor <;> simp only [budgets] <;> repeat' split
  all_goals omega

/-! ### What the loop does -/

/-- The marks of the scopes around the body. -/
def marks (c : ForClauses) (flags : List Bool) : List Bool :=
  match c.increment with
  | none => flags
  | some _ => true :: flags

/-- Trees that differ by the scope of the body, which is folded away. -/
structure LoopFolds (τ : Tables) (flags : List Bool) (c c' : ForClauses) : Prop where
  condition : Expr.OptionFolds τ flags c.condition c'.condition
  body : c.body.Folds τ (c.marks flags) c'.body
  increment : Expr.OptionFolds τ (c.marks flags) c.increment c'.increment

variable {τ : Tables} {flags : List Bool} {t : MachineFold} {c c' : ForClauses}

theorem rounds_eq (x : Eval Value) (y : Eval Flow) (z : Eval Unit) (n : Nat) :
    rounds x y z n = whileLoop x (andThen y (z >>= fun _ => pure .normal)) n := by
  induction n with
  | zero => rfl
  | succ n ih =>
    refine bind_congr fun v => ?_
    split
    · refine (bind_congr fun flow => ?_).trans (bind_assoc y _ _).symm
      cases flow with
      | normal => simp only [bind_assoc,pure_bind,ih]
      | returned w => rfl
    · rfl

theorem andThen_normal (y : Eval Flow) : andThen y (pure () >>= fun _ => pure .normal) = y := by
  refine (bind_congr fun flow => ?_).trans (bind_pure y)
  cases flow <;> rfl

theorem executeEach_pair (f : Stmt → Eval Flow) (a b : Stmt) : executeEach f [a,b] = andThen (f a) (f b) := by
  refine bind_congr fun flow => ?_
  cases flow with
  | normal =>
    refine (bind_congr fun flow => ?_).trans (bind_pure (f b))
    cases flow <;> rfl
  | returned v => rfl

theorem andThen_tracks {x x' y y' : Eval Flow} (hx : Tracks τ flags (HeapFold.KnowsFlow τ) x x' t)
    (hy : ∀ u, u.At τ flags → t.heap.Grows u.heap → Tracks τ flags (HeapFold.KnowsFlow τ) y y' u) :
    Tracks τ flags (HeapFold.KnowsFlow τ) (andThen x y) (andThen x' y') t := by
  refine hx.bind fun flow u hu hlater hflow => ?_
  cases flow with
  | normal => exact hy u hu hlater.heap
  | returned v => exact .pure hu hflow

theorem test_tracks (h : LoopFolds τ flags c c') (ht : t.At τ flags) (n : Nat) :
    Tracks τ flags (HeapFold.Knows τ) (evaluate (n + 1) (c.condition.getD (.literal (.boolean true))))
      (c'.test (n + 1)) t := by
  have hcondition := h.condition
  rw [test]
  generalize c.condition = e at hcondition
  generalize c'.condition = e' at hcondition
  cases hcondition with
  | none => exact .pure ht trivial
  | some he => exact (τ.evaluates_performs (n + 1)).1 he ht

/-- The scope around body and increment has no names. -/
theorem whole_tracks (h : LoopFolds τ flags c c') (ht : t.At τ flags) (n : Nat) :
    Tracks τ flags (HeapFold.KnowsFlow τ) (execute n c.whole)
      (andThen (execute (if c.increment.isSome then n - 1 else n) c'.body)
        (c'.advance ((if c.increment.isSome then n - 1 else n) - 1) >>= fun _ => pure .normal)) t := by
  have hbody := h.body
  have hincrement := h.increment
  rw [whole,advance]
  rw [marks] at hbody hincrement
  generalize c.increment = e at hbody hincrement
  generalize c'.increment = e' at hincrement
  cases hincrement with
  | none =>
    dsimp only [Option.isSome]
    rw [andThen_normal]
    exact (τ.evaluates_performs n).2 hbody ht
  | some he =>
    cases n with
    | zero => exact .exhausted ht
    | succ n =>
      refine Tracks.inSpare ht fun u hu _ => ?_
      rw [executeEach_pair]
      refine andThen_tracks ((τ.evaluates_performs n).2 hbody hu) fun w hw _ => ?_
      cases n with
      | zero => exact .exhausted hw
      | succ n =>
        simp only [bind_assoc,pure_bind]
        exact ((τ.evaluates_performs n).1 he hw).bind fun _ z hz _ _ => .pure hz trivial

theorem plain_tracks (h : LoopFolds τ flags c c') (ht : t.At τ flags) (n : Nat) :
    Tracks τ flags (HeapFold.KnowsFlow τ) (execute n c.plain)
      (c'.loop ⟨n - 1,n - 1,if c.increment.isSome then n - 2 else n - 1,
        (if c.increment.isSome then n - 2 else n - 1) - 1⟩) t := by
  rw [loop,rounds_eq]
  cases n with
  | zero => exact .exhausted ht
  | succ n =>
    cases n with
    | zero => exact .exhausted ht
    | succ n =>
      refine Tracks.whileLoop (fun u hu => test_tracks h hu n) (fun u hu => ?_) (n + 1) ht
      exact whole_tracks h hu (n + 1)

/-- Trees that differ by the scope of the body. An initializer has a scope that is kept. -/
inductive Folds (τ : Tables) (flags : List Bool) (c c' : ForClauses) : Prop
  | bare (hleft : c.initializer = none) (hright : c'.initializer = none) (hloop : LoopFolds τ flags c c')
  | initialized {s s'} (hleft : c.initializer = some s) (hright : c'.initializer = some s')
    (hinitializer : s.Folds τ (false :: flags) s') (hloop : LoopFolds τ (false :: flags) c c')

theorem desugared_tracks (h : Folds τ flags c c') (ht : t.At τ flags) (n : Nat) :
    Tracks τ flags (HeapFold.KnowsFlow τ) (execute (n + 1) c.desugared) (c'.runWith (c.budgets (n + 1))) t := by
  cases h with
  | bare hleft hright hloop =>
    rw [desugared_of_none hleft,runWith,hright,budgets,hleft]
    exact plain_tracks hloop ht (n + 1)
  | initialized hleft hright hinitializer hloop =>
    rw [desugared_of_some hleft,runWith,hright,budgets,hleft]
    refine .get ?_
    rw [ht.scope,executeEach_pair]
    refine Tracks.inNew ht ht.follows (by simp) fun u hu _ => ?_
    exact andThen_tracks ((τ.evaluates_performs n).2 hinitializer hu) fun w hw _ => plain_tracks hloop hw n

/-! ### Where the names are -/

variable {around : Surroundings} {s s' : Scoping}

theorem plain_scoping (c : ForClauses) (around : Surroundings) (s : Scoping) :
    Scoping.stmt around c.plain s = Scoping.stmt around c.whole (Scoping.optional around c.condition s) := by
  rw [plain,Scoping.stmt]
  cases c.condition <;> rfl

theorem body_proper (h : c.whole.Proper) : c.body.Proper := by
  rw [whole] at h
  split at h
  · exact h
  · exact h.1

/-- The names of body and increment are looked for in one more scope, and it has none of them. -/
theorem whole_folds (hcopy : Copy c c') (hproper : c.body.Proper) (hdeclared : c.body.declared? = none)
    (hscopes : Inserted flags s.scopes s'.scopes)
    (hseen : τ.Seen (Scoping.stmt around c.whole s).findings
      (Scoping.optional around c'.increment ⟨s'.scopes,(Scoping.stmt around c'.body s').findings⟩).findings) :
    c.body.Folds τ (c.marks flags) c'.body ∧ Expr.OptionFolds τ (c.marks flags) c.increment c'.increment := by
  have hincrement := hcopy.increment
  rw [whole] at hseen
  rw [marks]
  generalize c.increment = e at hseen hincrement
  generalize c'.increment = e' at hseen hincrement
  cases hincrement with
  | none => exact ⟨Scoping.stmt_folds hcopy.body hproper (fun _ => hdeclared) hscopes hseen,.none⟩
  | some he =>
    have hinside : Inserted (true :: flags) s.enter.scopes s'.scopes := .spare hscopes
    let behind : Scoping := ⟨s'.scopes,(Scoping.stmt around c'.body s').findings⟩
    have hbehind : Inserted (true :: flags) (Scoping.stmt around c.body s.enter).scopes behind.scopes := by
      rw [Scoping.stmt_scopes c.body s.enter hproper,hdeclared]
      exact hinside
    have hbody := Scoping.seen_expr hseen
    exact ⟨Scoping.stmt_folds hcopy.body hproper (fun _ => hdeclared) hinside hbody,
      .some (Scoping.expr_folds he hbehind hseen)⟩

theorem resolvedRounds_findings (c : ForClauses) (around : Surroundings) (s : Scoping) :
    s.findings ⊆ (c.resolvedRounds around s).findings :=
  List.Subset.trans (Scoping.optional_findings _ s)
    (List.Subset.trans (Scoping.stmt_findings c.body _) (Scoping.optional_findings c.increment ⟨s.scopes,_⟩))

theorem loop_folds (hcopy : Copy c c') (hproper : c.plain.Proper) (hdeclared : c.body.declared? = none)
    (hscopes : Inserted flags s.scopes s'.scopes)
    (hseen : τ.Seen (Scoping.stmt around c.plain s).findings (c'.resolvedRounds around s').findings) :
    LoopFolds τ flags c c' := by
  rw [plain_scoping,resolvedRounds] at hseen
  have hcondition := hseen.mono (Scoping.stmt_findings _ _)
    (List.Subset.trans (Scoping.stmt_findings c'.body _) (Scoping.optional_findings c'.increment ⟨s'.scopes,_⟩))
  have hinside : Inserted flags (Scoping.optional around c.condition s).scopes
      (Scoping.optional around c'.condition s').scopes := by
    rw [Scoping.optional_scopes,Scoping.optional_scopes]
    exact hscopes
  rw [← Scoping.optional_scopes c'.condition s'] at hseen
  obtain ⟨hbody,hincrement⟩ := whole_folds hcopy (body_proper hproper.2.1) hdeclared hinside hseen
  exact ⟨Scoping.optional_folds hcopy.condition hscopes hcondition,hbody,hincrement⟩

/-- The statement and the clauses refer to the same variables. -/
theorem folds (hcopy : Copy c c') (hproper : c.desugared.Proper) (hdeclared : c.body.declared? = none)
    (hscopes : Inserted flags s.scopes s'.scopes)
    (hseen : τ.Seen (Scoping.stmt around c.desugared s).findings (c'.resolved around s').findings) :
    Folds τ flags c c' := by
  have hinitializer := hcopy.initializer
  rw [resolved] at hseen
  generalize hleft : c.initializer = i at hinitializer
  generalize hright : c'.initializer = i' at hinitializer hseen
  cases hinitializer with
  | none =>
    rw [desugared_of_none hleft] at hproper hseen
    exact .bare hleft hright (loop_folds hcopy hproper hdeclared hscopes hseen)
  | @some b b' hb =>
    rw [desugared_of_some hleft] at hproper hseen
    obtain ⟨hinit,hloop,-⟩ := hproper
    have hentered : Inserted (false :: flags) s.enter.scopes s'.enter.scopes := .kept ∅ hscopes
    have hname (h : (false :: flags).headD false = true) : b.declared? = none := absurd h Bool.false_ne_true
    have hbehind : Inserted (false :: flags) (Scoping.stmt around b s.enter).scopes
        (Scoping.stmt around b' s'.enter).scopes := Scoping.inserted_stmt hb hinit hname hentered
    have hfirst : τ.Seen (Scoping.stmt around b s.enter).findings (Scoping.stmt around b' s'.enter).findings :=
      hseen.mono (Scoping.stmt_findings c.plain _) (resolvedRounds_findings c' around _)
    exact .initialized hleft hright (Scoping.stmt_folds hb hinit hname hentered hfirst)
      (loop_folds hcopy hloop hdeclared hbehind hseen)

end ForClauses
end Lox

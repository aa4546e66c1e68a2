import Lox.Machine
import Lox.Proofs.Renaming.Tree
import Lox.Proofs.Scoping.Place

/-! Trees that differ in the distances of their names. Around the first one there are more scopes than around
the second: those that have no names are folded away. -/
namespace Lox

/-- How far it is to a scope without those in between that are folded away, by the marks of the scopes around,
innermost first. -/
def folded : List Bool → Nat → Nat
  | _, 0 => 0
  | [], d => d
  | true :: flags, d + 1 => folded flags d
  | false :: flags, d + 1 => folded flags d + 1

/-- The distances that two programs run with. -/
structure Tables where
  left : Distances
  right : Distances

/-- Two occurrences of a name that is global, or that is found as far out but for the scopes that are folded
away. It is not found in one of those. -/
inductive Tables.Agree (τ : Tables) (flags : List Bool) (i i' : ExprId) : Prop
  | global (hleft : τ.left.find? i = none) (hright : τ.right.find? i' = none)
  | local {d} (hleft : τ.left.find? i = some d) (hkept : flags.getD d false = false)
    (hright : τ.right.find? i' = some (folded flags d))

section

variable {flags : List Bool}

theorem kept_head (h : true ∉ flags) : flags.headD false = false := by
  cases hflag : flags.headD false with
  | false => rfl
  | true => exact absurd (Renaming.mem_of_headD hflag) h

@[simp] theorem folded_zero (flags : List Bool) : folded flags 0 = 0 := by
  cases flags with
  | nil => rfl
  | cons flag flags => cases flag <;> rfl

/-- The innermost scope is kept. -/
theorem folded_succ (h : flags.headD false = false) (d : Nat) : folded flags (d + 1) = folded flags.tail d + 1 := by
  cases flags with
  | nil => cases d <;> rfl
  | cons flag flags =>
    obtain rfl : flag = false := h
    rfl

theorem folded_of_kept (h : true ∉ flags) (d : Nat) : folded flags d = d := by
  induction d generalizing flags with
  | zero => exact folded_zero flags
  | succ d ih => rw [folded_succ (kept_head h),ih fun hmem => h (List.mem_of_mem_tail hmem)]

/-- One scope further out, if the one at this distance is kept. -/
theorem folded_next {d : Nat} (h : flags.getD d false = false) : folded flags (d + 1) = folded flags d + 1 := by
  induction d generalizing flags with
  | zero =>
    have hhead : flags.headD false = false := by cases flags <;> exact h
    rw [folded_succ hhead,folded_zero,folded_zero]
  | succ d ih =>
    cases flags with
    | nil => rfl
    | cons flag flags =>
      have hnext : folded flags (d + 1) = folded flags d + 1 := ih h
      cases flag with
      | true => exact hnext
      | false => exact congrArg (· + 1) hnext

end

mutual

inductive Expr.Folds (τ : Tables) (flags : List Bool) : Expr → Expr → Prop
  | literal {value} : Expr.Folds τ flags (.literal value) (.literal value)
  | grouping {e e'} : Expr.Folds τ flags e e' → Expr.Folds τ flags (.grouping e) (.grouping e')
  | unary {t e e'} : Expr.Folds τ flags e e' → Expr.Folds τ flags (.unary t e) (.unary t e')
  | binary {a a' t b b'} : Expr.Folds τ flags a a' → Expr.Folds τ flags b b' →
      Expr.Folds τ flags (.binary a t b) (.binary a' t b')
  | logical {a a' t b b'} : Expr.Folds τ flags a a' → Expr.Folds τ flags b b' →
      Expr.Folds τ flags (.logical a t b) (.logical a' t b')
  | ternary {a a' b b' c c'} : Expr.Folds τ flags a a' → Expr.Folds τ flags b b' → Expr.Folds τ flags c c' →
      Expr.Folds τ flags (.ternary a b c) (.ternary a' b' c')
  | variable {i i' t} : τ.Agree flags i i' → Expr.Folds τ flags (.variable i t) (.variable i' t)
  | assign {i i' t e e'} : τ.Agree flags i i' → Expr.Folds τ flags e e' →
      Expr.Folds τ flags (.assign i t e) (.assign i' t e')
  | call {e e' t es es'} : Expr.Folds τ flags e e' → Expr.ListFolds τ flags es es' →
      Expr.Folds τ flags (.call e t es) (.call e' t es')
  | get {e e' t} : Expr.Folds τ flags e e' → Expr.Folds τ flags (.get e t) (.get e' t)
  | set {a a' t b b'} : Expr.Folds τ flags a a' → Expr.Folds τ flags b b' →
      Expr.Folds τ flags (.set a t b) (.set a' t b')
  | this {i i' t} : τ.Agree flags i i' → Expr.Folds τ flags (.this i t) (.this i' t)
  | super {i i' t u} : τ.Agree flags i i' → Expr.Folds τ flags (.super i t u) (.super i' t u)

inductive Expr.ListFolds (τ : Tables) (flags : List Bool) : List Expr → List Expr → Prop
  | nil : Expr.ListFolds τ flags [] []
  | cons {e e' es es'} : Expr.Folds τ flags e e' → Expr.ListFolds τ flags es es' →
      Expr.ListFolds τ flags (e :: es) (e' :: es')

end

inductive Expr.OptionFolds (τ : Tables) (flags : List Bool) : Option Expr → Option Expr → Prop
  | none : Expr.OptionFolds τ flags none none
  | some {e e'} : Expr.Folds τ flags e e' → Expr.OptionFolds τ flags (some e) (some e')

namespace Stmt

mutual

/-- The scopes of blocks, functions and receivers are kept, and so are those that names are declared in. -/
inductive Folds (τ : Tables) : List Bool → Stmt → Stmt → Prop
  | expression {flags e e'} : Expr.Folds τ flags e e' → Folds τ flags (.expression e) (.expression e')
  | print {flags e e'} : Expr.Folds τ flags e e' → Folds τ flags (.print e) (.print e')
  | var {flags t e e'} : flags.headD false = false → Expr.OptionFolds τ flags e e' →
      Folds τ flags (.var t e) (.var t e')
  | block {flags ss ss'} : ListFolds τ (false :: flags) ss ss' → Folds τ flags (.block ss) (.block ss')
  | branch {flags e e' a a' b b'} : Expr.Folds τ flags e e' → Folds τ flags a a' → OptionFolds τ flags b b' →
      Folds τ flags (.branch e a b) (.branch e' a' b')
  | loop {flags e e' s s'} : Expr.Folds τ flags e e' → Folds τ flags s s' →
      Folds τ flags (.loop e s) (.loop e' s')
  | function {flags d d'} : flags.headD false = false → FunctionFolds τ flags d d' →
      Folds τ flags (.function d) (.function d')
  | return {flags t e e'} : Expr.OptionFolds τ flags e e' → Folds τ flags (.return t e) (.return t e')
  | class {flags t e e' ds ds'} : flags.headD false = false → Expr.OptionFolds τ flags e e' →
      FunctionsFold τ (false :: Renaming.aroundReceiver flags e.isSome) ds ds' →
      Folds τ flags (.class t e ds) (.class t e' ds')

inductive OptionFolds (τ : Tables) : List Bool → Option Stmt → Option Stmt → Prop
  | none {flags} : OptionFolds τ flags none none
  | some {flags s s'} : Folds τ flags s s' → OptionFolds τ flags (some s) (some s')

inductive ListFolds (τ : Tables) : List Bool → List Stmt → List Stmt → Prop
  | nil {flags} : ListFolds τ flags [] []
  | cons {flags s s' ss ss'} : Folds τ flags s s' → ListFolds τ flags ss ss' →
      ListFolds τ flags (s :: ss) (s' :: ss')

inductive FunctionFolds (τ : Tables) : List Bool → FunctionDecl → FunctionDecl → Prop
  | mk {flags name parameters body body'} : ListFolds τ (false :: flags) body body' →
      FunctionFolds τ flags ⟨name,parameters,body⟩ ⟨name,parameters,body'⟩

inductive FunctionsFold (τ : Tables) : List Bool → List FunctionDecl → List FunctionDecl → Prop
  | nil {flags} : FunctionsFold τ flags [] []
  | cons {flags d d' ds ds'} : FunctionFolds τ flags d d' → FunctionsFold τ flags ds ds' →
      FunctionsFold τ flags (d :: ds) (d' :: ds')

end

namespace FunctionFolds

variable {τ : Tables} {flags : List Bool} {d d' : FunctionDecl} (h : FunctionFolds τ flags d d')
include h

theorem name : d'.name = d.name := by
  cases h
  rfl

theorem parameters : d'.parameters = d.parameters := by
  cases h
  rfl

theorem body : ListFolds τ (false :: flags) d.body d'.body := by
  cases h with
  | mk hbody => exact hbody

end FunctionFolds
end Stmt

/-! ### Trees for which the distances are the same

No scope is folded away around them. -/

/-- Both programs have the same distances for these occurrences. -/
def Tables.SameFor (τ : Tables) (occurrences : List (ExprId × Place)) : Prop :=
  ∀ o ∈ occurrences, τ.right.find? o.1 = τ.left.find? o.1

variable {τ : Tables} {flags : List Bool}

namespace Tables.SameFor

variable {a b : List (ExprId × Place)}

theorem left (h : τ.SameFor (a ++ b)) : τ.SameFor a := fun o ho => h o (List.mem_append_left b ho)

theorem right (h : τ.SameFor (a ++ b)) : τ.SameFor b := fun o ho => h o (List.mem_append_right a ho)

theorem agree {i : ExprId} {here : Place} (h : τ.SameFor [(i,here)]) (hflags : true ∉ flags) : τ.Agree flags i i := by
  have hsame := h (i,here) List.mem_cons_self
  cases hd : τ.left.find? i with
  | none => exact .global hd (hsame.trans hd)
  | some d =>
    refine .local hd (Renaming.getD_false hflags d) ?_
    rw [folded_of_kept hflags]
    exact hsame.trans hd

end Tables.SameFor

mutual

theorem Expr.Folds.refl {here : Place} (hflags : true ∉ flags) :
    ∀ e : Expr, τ.SameFor (e.occurrences here) → e.Folds τ flags e
  | .literal _,_ => .literal
  | .grouping inner,h => .grouping (.refl hflags inner h)
  | .unary _ right,h => .unary (.refl hflags right h)
  | .binary left _ right,h => .binary (.refl hflags left h.left) (.refl hflags right h.right)
  | .logical left _ right,h => .logical (.refl hflags left h.left) (.refl hflags right h.right)
  | .ternary condition ifTrue ifFalse,h =>
    .ternary (.refl hflags condition h.left) (.refl hflags ifTrue h.right.left) (.refl hflags ifFalse h.right.right)
  | .variable _ _,h => .variable (h.agree hflags)
  | .assign _ _ value,h => .assign (h.right.agree hflags) (.refl hflags value h.left)
  | .call callee _ arguments,h => .call (.refl hflags callee h.left) (.refl hflags arguments h.right)
  | .get object _,h => .get (.refl hflags object h)
  | .set object _ value,h => .set (.refl hflags object h.right) (.refl hflags value h.left)
  | .this _ _,h => .this (h.agree hflags)
  | .super _ _ _,h => .super (h.agree hflags)

theorem Expr.ListFolds.refl {here : Place} (hflags : true ∉ flags) :
    ∀ es : List Expr, τ.SameFor (Expr.listOccurrences here es) → Expr.ListFolds τ flags es es
  | [],_ => .nil
  | e :: es,h => .cons (.refl hflags e h.left) (.refl hflags es h.right)

end

theorem Expr.OptionFolds.refl {here : Place} (hflags : true ∉ flags) :
    ∀ e : Option Expr, τ.SameFor (Expr.optionOccurrences here e) → Expr.OptionFolds τ flags e e
  | .none,_ => .none
  | .some e,h => .some (.refl hflags e h)

namespace Stmt

mutual

theorem Folds.refl {sites : List Site} : ∀ {flags : List Bool}, true ∉ flags →
    ∀ s : Stmt, τ.SameFor (s.occurrences sites) → s.Folds τ flags s
  | _,hflags,.expression e,h => .expression (.refl hflags e h)
  | _,hflags,.print e,h => .print (.refl hflags e h)
  | _,hflags,.var _ initializer,h => .var (kept_head hflags) (.refl hflags initializer h)
  | _,hflags,.block body,h => .block (ListFolds.refl (Renaming.unmarked_cons hflags) body h)
  | _,hflags,.branch condition thenBranch elseBranch,h =>
    .branch (.refl hflags condition h.left) (Folds.refl hflags thenBranch h.right.left)
      (OptionFolds.refl hflags elseBranch h.right.right)
  | _,hflags,.loop condition body,h => .loop (.refl hflags condition h.left) (Folds.refl hflags body h.right)
  | _,hflags,.function d,h => .function (kept_head hflags) (FunctionFolds.refl hflags d h)
  | _,hflags,.return _ value,h => .return (.refl hflags value h)
  | _,hflags,.class _ superclass methods,h =>
    .class (kept_head hflags) (.refl hflags superclass h.left)
      (FunctionsFold.refl (Renaming.unmarked_cons (Renaming.unmarked_aroundReceiver hflags _)) methods h.right)

theorem OptionFolds.refl {sites : List Site} : ∀ {flags : List Bool}, true ∉ flags →
    ∀ s : Option Stmt, τ.SameFor (optionOccurrences sites s) → OptionFolds τ flags s s
  | _,_,.none,_ => .none
  | _,hflags,.some s,h => .some (Folds.refl hflags s h)

theorem ListFolds.refl {sites : List Site} : ∀ {flags : List Bool}, true ∉ flags →
    ∀ ss : List Stmt, τ.SameFor (listOccurrences sites ss) → ListFolds τ flags ss ss
  | _,_,[],_ => .nil
  | _,hflags,s :: ss,h => .cons (Folds.refl hflags s h.left) (ListFolds.refl hflags ss h.right)

theorem FunctionFolds.refl {sites : List Site} : ∀ {flags : List Bool}, true ∉ flags →
    ∀ d : FunctionDecl, τ.SameFor (functionOccurrences sites d) → FunctionFolds τ flags d d
  | _,hflags,⟨_,_,body⟩,h => .mk (ListFolds.refl (Renaming.unmarked_cons hflags) body h)

theorem FunctionsFold.refl {sites : List Site} : ∀ {flags : List Bool}, true ∉ flags →
    ∀ ds : List FunctionDecl, τ.SameFor (methodOccurrences sites ds) → FunctionsFold τ flags ds ds
  | _,_,[],_ => .nil
  | _,hflags,d :: ds,h => .cons (FunctionFolds.refl hflags d h.left) (FunctionsFold.refl hflags ds h.right)

end

end Stmt
end Lox

import Lox.Proofs.Alike.Tree
import Lox.Proofs.Renaming.Variable
import Lox.Proofs.Syntax.Proper

/-! Trees that differ in the name of variables. Each scope is marked that has the variable under its new name. -/
namespace Lox

namespace Renaming

variable {ρ : Renaming} {flags : List Bool} {flag : Bool} {i : ExprId} {t t' : Token}

/-- Whether an occurrence refers to a renamed variable, by the marks of the scopes around, innermost first. -/
def refers (ρ : Renaming) (flags : List Bool) (i : ExprId) : Bool :=
  (ρ.bound i).elim false fun d => flags.getD d false

/-- A token in the place of another one. The new name must not be there yet, where it could be captured. -/
structure Gives (ρ : Renaming) (flags : List Bool) (renamed : Bool) (t t' : Token) : Prop where
  token : t' = ρ.token renamed t
  fresh : true ∈ flags → t.lexeme ≠ ρ.new

@[simp] theorem name_false (ρ : Renaming) (x : String) : ρ.name false x = x := rfl

@[simp] theorem token_line (ρ : Renaming) (flag : Bool) (t : Token) : (ρ.token flag t).line = t.line := rfl

@[simp] theorem token_lexeme (ρ : Renaming) (flag : Bool) (t : Token) :
    (ρ.token flag t).lexeme = ρ.name flag t.lexeme := rfl

theorem name_of_ne {x : String} (h : x ≠ ρ.old) (flag : Bool) : ρ.name flag x = x := by
  simp [name,h]

theorem token_of_ne (h : t.lexeme ≠ ρ.old) (flag : Bool) : ρ.token flag t = t := by
  rw [token,name_of_ne h]

theorem getD_false (h : true ∉ flags) (d : Nat) : flags.getD d false = false := by
  rw [List.getD_eq_getElem?_getD]
  cases hd : flags[d]? with
  | none => rfl
  | some flag =>
    cases flag with
    | false => rfl
    | true => exact absurd (List.mem_of_getElem? hd) h

theorem mem_of_getD {d : Nat} (h : flags.getD d false = true) : true ∈ flags := by
  by_contra hmem
  rw [getD_false hmem] at h
  cases h

theorem mem_of_headD (h : flags.headD false = true) : true ∈ flags := by
  cases flags with
  | nil => cases h
  | cons flag flags => exact List.mem_cons.mpr (.inl (Eq.symm h))

theorem refers_none (h : ρ.bound i = none) (flags : List Bool) : ρ.refers flags i = false := by
  rw [refers,h]
  rfl

theorem refers_some {d : Nat} (h : ρ.bound i = some d) (flags : List Bool) :
    ρ.refers flags i = flags.getD d false := by
  rw [refers,h]
  rfl

theorem refers_false (h : true ∉ flags) (i : ExprId) : ρ.refers flags i = false := by
  cases hbound : ρ.bound i with
  | none => exact refers_none hbound flags
  | some d => exact (refers_some hbound flags).trans (getD_false h d)

theorem mem_of_refers (h : ρ.refers flags i = true) : true ∈ flags := by
  by_contra hmem
  rw [refers_false hmem] at h
  cases h

theorem Gives.same (h : true ∉ flags) (t : Token) : ρ.Gives flags false t t :=
  ⟨rfl,fun hmem => absurd hmem h⟩

theorem Gives.line (h : ρ.Gives flags flag t t') : t'.line = t.line := by
  rw [h.token,token_line]

theorem Gives.lexeme (h : ρ.Gives flags flag t t') : t'.lexeme = ρ.name flag t.lexeme := by
  rw [h.token,token_lexeme]

/-- The two names differ from each other, and from those that programs cannot declare. -/
structure Apt (ρ : Renaming) : Prop where
  ne : ρ.new ≠ ρ.old
  this : "this" ≠ ρ.old ∧ "this" ≠ ρ.new
  super : "super" ≠ ρ.old ∧ "super" ≠ ρ.new

end Renaming

mutual

inductive Expr.Renamed (ρ : Renaming) (flags : List Bool) : Expr → Expr → Prop
  | literal {value} : Expr.Renamed ρ flags (.literal value) (.literal value)
  | grouping {e e'} : Expr.Renamed ρ flags e e' → Expr.Renamed ρ flags (.grouping e) (.grouping e')
  | unary {t e e'} : Expr.Renamed ρ flags e e' → Expr.Renamed ρ flags (.unary t e) (.unary t e')
  | binary {a a' t b b'} : Expr.Renamed ρ flags a a' → Expr.Renamed ρ flags b b' →
      Expr.Renamed ρ flags (.binary a t b) (.binary a' t b')
  | logical {a a' t b b'} : Expr.Renamed ρ flags a a' → Expr.Renamed ρ flags b b' →
      Expr.Renamed ρ flags (.logical a t b) (.logical a' t b')
  | ternary {a a' b b' c c'} : Expr.Renamed ρ flags a a' → Expr.Renamed ρ flags b b' →
      Expr.Renamed ρ flags c c' → Expr.Renamed ρ flags (.ternary a b c) (.ternary a' b' c')
  | variable {i t t'} : ρ.Gives flags (ρ.refers flags i) t t' →
      Expr.Renamed ρ flags (.variable i t) (.variable i t')
  | assign {i t t' e e'} : ρ.Gives flags (ρ.refers flags i) t t' → Expr.Renamed ρ flags e e' →
      Expr.Renamed ρ flags (.assign i t e) (.assign i t' e')
  | call {e e' t es es'} : Expr.Renamed ρ flags e e' → Expr.ListRenamed ρ flags es es' →
      Expr.Renamed ρ flags (.call e t es) (.call e' t es')
  | get {e e' t} : Expr.Renamed ρ flags e e' → Expr.Renamed ρ flags (.get e t) (.get e' t)
  | set {a a' t b b'} : Expr.Renamed ρ flags a a' → Expr.Renamed ρ flags b b' →
      Expr.Renamed ρ flags (.set a t b) (.set a' t b')
  | this {i t} : ρ.Gives flags (ρ.refers flags i) t t → Expr.Renamed ρ flags (.this i t) (.this i t)
  | super {i t u} : ρ.Gives flags (ρ.refers flags i) t t →
      Expr.Renamed ρ flags (.super i t u) (.super i t u)

inductive Expr.ListRenamed (ρ : Renaming) (flags : List Bool) : List Expr → List Expr → Prop
  | nil : Expr.ListRenamed ρ flags [] []
  | cons {e e' es es'} : Expr.Renamed ρ flags e e' → Expr.ListRenamed ρ flags es es' →
      Expr.ListRenamed ρ flags (e :: es) (e' :: es')

end

inductive Expr.OptionRenamed (ρ : Renaming) (flags : List Bool) : Option Expr → Option Expr → Prop
  | none : Expr.OptionRenamed ρ flags none none
  | some {e e'} : Expr.Renamed ρ flags e e' → Expr.OptionRenamed ρ flags (some e) (some e')

/-- The marks of the scopes around the receivers of a class, which may have a superclass. -/
def Renaming.aroundReceiver (flags : List Bool) : Bool → List Bool
  | false => flags
  | true => false :: flags

namespace Stmt

mutual

/-- The scope that a statement opens may have the variable or not. -/
inductive Renamed (ρ : Renaming) : List Bool → Stmt → Stmt → Prop
  | expression {flags e e'} : Expr.Renamed ρ flags e e' → Renamed ρ flags (.expression e) (.expression e')
  | print {flags e e'} : Expr.Renamed ρ flags e e' → Renamed ρ flags (.print e) (.print e')
  | var {flags t t' e e'} : ρ.Gives flags (flags.headD false) t t' → Expr.OptionRenamed ρ flags e e' →
      Renamed ρ flags (.var t e) (.var t' e')
  | block {flags flag ss ss'} : ListRenamed ρ (flag :: flags) ss ss' →
      Renamed ρ flags (.block ss) (.block ss')
  | branch {flags e e' a a' b b'} : Expr.Renamed ρ flags e e' → Renamed ρ flags a a' →
      OptionRenamed ρ flags b b' → Renamed ρ flags (.branch e a b) (.branch e' a' b')
  | loop {flags e e' s s'} : Expr.Renamed ρ flags e e' → Renamed ρ flags s s' →
      Renamed ρ flags (.loop e s) (.loop e' s')
  | function {flags d d'} : ρ.Gives flags (flags.headD false) d.name d.name → FunctionRenamed ρ flags d d' →
      Renamed ρ flags (.function d) (.function d')
  | return {flags t e e'} : Expr.OptionRenamed ρ flags e e' →
      Renamed ρ flags (.return t e) (.return t e')
  | class {flags t e e' ds ds'} : ρ.Gives flags (flags.headD false) t t → Expr.OptionRenamed ρ flags e e' →
      FunctionsRenamed ρ (false :: Renaming.aroundReceiver flags e.isSome) ds ds' →
      Renamed ρ flags (.class t e ds) (.class t e' ds')

inductive OptionRenamed (ρ : Renaming) : List Bool → Option Stmt → Option Stmt → Prop
  | none {flags} : OptionRenamed ρ flags none none
  | some {flags s s'} : Renamed ρ flags s s' → OptionRenamed ρ flags (some s) (some s')

inductive ListRenamed (ρ : Renaming) : List Bool → List Stmt → List Stmt → Prop
  | nil {flags} : ListRenamed ρ flags [] []
  | cons {flags s s' ss ss'} : Renamed ρ flags s s' → ListRenamed ρ flags ss ss' →
      ListRenamed ρ flags (s :: ss) (s' :: ss')

inductive FunctionRenamed (ρ : Renaming) : List Bool → FunctionDecl → FunctionDecl → Prop
  | mk {flags flag name parameters parameters' body body'} :
      List.Forall₂ (ρ.Gives (flag :: flags) flag) parameters parameters' →
      ListRenamed ρ (flag :: flags) body body' →
      FunctionRenamed ρ flags ⟨name,parameters,body⟩ ⟨name,parameters',body'⟩

inductive FunctionsRenamed (ρ : Renaming) : List Bool → List FunctionDecl → List FunctionDecl → Prop
  | nil {flags} : FunctionsRenamed ρ flags [] []
  | cons {flags d d' ds ds'} : FunctionRenamed ρ flags d d' → FunctionsRenamed ρ flags ds ds' →
      FunctionsRenamed ρ flags (d :: ds) (d' :: ds')

end

theorem FunctionRenamed.name {ρ : Renaming} {flags : List Bool} {d d' : FunctionDecl}
    (h : FunctionRenamed ρ flags d d') : d'.name = d.name := by
  cases h
  rfl

/-- The scope of a function may be marked. -/
theorem FunctionRenamed.scope {ρ : Renaming} {flags : List Bool} {d d' : FunctionDecl}
    (h : FunctionRenamed ρ flags d d') : ∃ flag,
      List.Forall₂ (ρ.Gives (flag :: flags) flag) d.parameters d'.parameters ∧
        ListRenamed ρ (flag :: flags) d.body d'.body := by
  cases h with
  | mk hparameters hbody => exact ⟨_,hparameters,hbody⟩

theorem FunctionRenamed.arity {ρ : Renaming} {flags : List Bool} {d d' : FunctionDecl}
    (h : FunctionRenamed ρ flags d d') : d'.parameters.length = d.parameters.length := by
  cases h with
  | mk hparameters _ => exact hparameters.length_eq.symm

end Stmt

variable {ρ : Renaming} {flags : List Bool}

/-! ### Trees without the variable -/

mutual

theorem Expr.Renamed.refl (h : true ∉ flags) : ∀ e : Expr, e.Renamed ρ flags e
  | .literal _ => .literal
  | .grouping inner => .grouping (.refl h inner)
  | .unary _ right => .unary (.refl h right)
  | .binary left _ right => .binary (.refl h left) (.refl h right)
  | .logical left _ right => .logical (.refl h left) (.refl h right)
  | .ternary condition ifTrue ifFalse => .ternary (.refl h condition) (.refl h ifTrue) (.refl h ifFalse)
  | .variable id name => .variable (ρ.refers_false h id ▸ .same h name)
  | .assign id name value => .assign (ρ.refers_false h id ▸ .same h name) (.refl h value)
  | .call callee _ arguments => .call (.refl h callee) (.refl h arguments)
  | .get object _ => .get (.refl h object)
  | .set object _ value => .set (.refl h object) (.refl h value)
  | .this id keyword => .this (ρ.refers_false h id ▸ .same h keyword)
  | .super id keyword _ => .super (ρ.refers_false h id ▸ .same h keyword)

theorem Expr.ListRenamed.refl (h : true ∉ flags) : ∀ es : List Expr, Expr.ListRenamed ρ flags es es
  | [] => .nil
  | e :: es => .cons (.refl h e) (.refl h es)

end

theorem Expr.OptionRenamed.refl (h : true ∉ flags) : ∀ e : Option Expr, Expr.OptionRenamed ρ flags e e
  | .none => .none
  | .some e => .some (.refl h e)

theorem Renaming.unmarked_cons (h : true ∉ flags) : true ∉ false :: flags := by
  simp [h]

theorem Renaming.unmarked_aroundReceiver (h : true ∉ flags) (inherits : Bool) :
    true ∉ aroundReceiver flags inherits := by
  cases inherits with
  | false => exact h
  | true => exact unmarked_cons h

theorem Renaming.Gives.declared (h : true ∉ flags) (t : Token) : ρ.Gives flags (flags.headD false) t t := by
  cases flags with
  | nil => exact .same h t
  | cons flag flags =>
    cases flag with
    | false => exact .same h t
    | true => exact absurd List.mem_cons_self h

namespace Stmt

mutual

theorem Renamed.refl : ∀ {flags : List Bool}, true ∉ flags → ∀ s : Stmt, s.Renamed ρ flags s
  | _,h,.expression e => .expression (.refl h e)
  | _,h,.print e => .print (.refl h e)
  | _,h,.var name initializer => .var (.declared h name) (.refl h initializer)
  | _,h,.block body => .block (ListRenamed.refl (Renaming.unmarked_cons h) body)
  | _,h,.branch condition thenBranch elseBranch =>
    .branch (.refl h condition) (Renamed.refl h thenBranch) (OptionRenamed.refl h elseBranch)
  | _,h,.loop condition body => .loop (.refl h condition) (Renamed.refl h body)
  | _,h,.function d => .function (.declared h d.name) (FunctionRenamed.refl h d)
  | _,h,.return _ value => .return (.refl h value)
  | _,h,.class name superclass methods => .class (.declared h name) (.refl h superclass)
      (FunctionsRenamed.refl (Renaming.unmarked_cons (Renaming.unmarked_aroundReceiver h _)) methods)

theorem OptionRenamed.refl : ∀ {flags : List Bool}, true ∉ flags → ∀ s : Option Stmt, OptionRenamed ρ flags s s
  | _,_,.none => .none
  | _,h,.some s => .some (Renamed.refl h s)

theorem ListRenamed.refl : ∀ {flags : List Bool}, true ∉ flags → ∀ ss : List Stmt, ListRenamed ρ flags ss ss
  | _,_,[] => .nil
  | _,h,s :: ss => .cons (Renamed.refl h s) (ListRenamed.refl h ss)

theorem FunctionRenamed.refl : ∀ {flags : List Bool}, true ∉ flags → ∀ d : FunctionDecl,
    FunctionRenamed ρ flags d d
  | _,h,⟨_,_,body⟩ =>
    .mk (List.forall₂_same.mpr fun p _ => .same (Renaming.unmarked_cons h) p)
      (ListRenamed.refl (Renaming.unmarked_cons h) body)

theorem FunctionsRenamed.refl : ∀ {flags : List Bool}, true ∉ flags → ∀ ds : List FunctionDecl,
    FunctionsRenamed ρ flags ds ds
  | _,_,[] => .nil
  | _,h,d :: ds => .cons (FunctionRenamed.refl h d) (FunctionsRenamed.refl h ds)

end

end Stmt

/-! ### Trees around which one scope has the variable -/

namespace Renaming

/-- The marks around a point that is `n` scopes inside the one that has the variable. -/
def within (outer : List Bool) : Nat → List Bool
  | 0 => true :: outer
  | n + 1 => false :: within outer n

/-- The same variable, with other distances. -/
def rebind (ρ : Renaming) (bound : ExprId → Option Nat) : Renaming := { ρ with bound := bound }

/-- Identities with the same distances, and tokens that are not spelt like the new name. -/
def apart (ρ : Renaming) (bound : ExprId → Option Nat) (heof : (Token.eof 1).lexeme ≠ ρ.new) : Likeness :=
  .only (fun i => bound i = ρ.bound i) (fun t => t.lexeme ≠ ρ.new) heof

/-- The old name is that of a variable, in a scope around which none is marked. -/
structure Local (ρ : Renaming) (outer : List Bool) : Prop where
  unmarked : true ∉ outer
  this : ρ.old ≠ "this"
  super : ρ.old ≠ "super"

variable {outer : List Bool} {bound : ExprId → Option Nat} {heof : (Token.eof 1).lexeme ≠ ρ.new} {i i' : ExprId}
  {t t' : Token}

theorem Apt.local (hρ : ρ.Apt) (houter : true ∉ outer) : ρ.Local outer :=
  ⟨houter,hρ.this.1.symm,hρ.super.1.symm⟩

theorem within_getD (hρ : ρ.Local outer) (n d : Nat) :
    (within outer n).getD d false = decide (d = n) := by
  induction n generalizing d with
  | zero =>
    cases d with
    | zero => rfl
    | succ d => exact (getD_false hρ.unmarked d).trans (by simp)
  | succ n ih =>
    cases d with
    | zero => rfl
    | succ d => exact (ih d).trans (by simp)

theorem within_headD (outer : List Bool) (n : Nat) : (within outer n).headD false = decide (n = 0) := by
  cases n <;> rfl

theorem within_refers (hρ : ρ.Local outer) (n : Nat) (h : bound i = ρ.bound i) :
    (ρ.rebind bound).refers (within outer n) i = decide (ρ.bound i = some n) := by
  show (bound i).elim false _ = _
  rw [h]
  cases ρ.bound i with
  | none => rfl
  | some d => exact (within_getD hρ n d).trans (by simp)

/-- The new name may be given to an occurrence. -/
theorem gives_occurrence (hρ : ρ.Local outer) (n : Nat) (hi : (ρ.apart bound heof).id i i')
    (ht : (ρ.apart bound heof).token t t') :
    (ρ.rebind bound).Gives (within outer n) ((ρ.rebind bound).refers (within outer n) i) t
      (ρ.token (ρ.bound i = some n) t) := by
  rw [within_refers hρ n hi.2]
  exact ⟨rfl,fun _ => ht.2⟩

theorem gives_keyword (hold : t.lexeme ≠ ρ.old) (ht : (ρ.apart bound heof).token t t') (flags : List Bool)
    (flag : Bool) : (ρ.rebind bound).Gives flags flag t t :=
  ⟨(token_of_ne hold flag).symm,fun _ => ht.2⟩

/-- The name of a function or a class does not change. -/
theorem gives_name (outer : List Bool) {n : Nat} (h : n = 0 → t.lexeme ≠ ρ.old)
    (ht : (ρ.apart bound heof).token t t') :
    (ρ.rebind bound).Gives (within outer n) ((within outer n).headD false) t t := by
  refine ⟨?_,fun _ => ht.2⟩
  rw [within_headD]
  cases n with
  | zero => exact (token_of_ne (h rfl) true).symm
  | succ n => rfl

theorem gives_variable (outer : List Bool) (n : Nat) (ht : (ρ.apart bound heof).token t t') :
    (ρ.rebind bound).Gives (within outer n) ((within outer n).headD false) t (ρ.token (n = 0) t) := by
  rw [within_headD]
  exact ⟨rfl,fun _ => ht.2⟩

end Renaming

open Renaming

variable {outer : List Bool} {bound : ExprId → Option Nat} {heof : (Token.eof 1).lexeme ≠ ρ.new}

mutual

theorem Expr.rename_renamed (hρ : ρ.Local outer) (n : Nat) : ∀ e : Expr, e.Alike (ρ.apart bound heof) e →
    e.Proper → e.Renamed (ρ.rebind bound) (within outer n) (e.rename ρ n)
  | .literal _,_,_ => .literal
  | .grouping inner,.grouping h,hp => .grouping (inner.rename_renamed hρ n h hp)
  | .unary _ right,.unary _ h,hp => .unary (right.rename_renamed hρ n h hp.2)
  | .binary left _ right,.binary ha _ hb,hp =>
    .binary (left.rename_renamed hρ n ha hp.2.1) (right.rename_renamed hρ n hb hp.2.2)
  | .logical left _ right,.logical ha _ hb,hp =>
    .logical (left.rename_renamed hρ n ha hp.1) (right.rename_renamed hρ n hb hp.2)
  | .ternary condition ifTrue ifFalse,.ternary ha hb hc,hp =>
    .ternary (condition.rename_renamed hρ n ha hp.1) (ifTrue.rename_renamed hρ n hb hp.2.1)
      (ifFalse.rename_renamed hρ n hc hp.2.2)
  | .variable _ _,.variable hi ht,_ => .variable (gives_occurrence hρ n hi ht)
  | .assign _ _ value,.assign hi ht h,hp =>
    .assign (gives_occurrence hρ n hi ht) (value.rename_renamed hρ n h hp.2)
  | .call callee _ arguments,.call h _ hs,hp =>
    .call (callee.rename_renamed hρ n h hp.1) (Expr.listRename_renamed hρ n arguments hs hp.2)
  | .get object _,.get h _,hp => .get (object.rename_renamed hρ n h hp)
  | .set object _ value,.set ha _ hb,hp =>
    .set (object.rename_renamed hρ n ha hp.1) (value.rename_renamed hρ n hb hp.2)
  | .this _ keyword,.this _ ht,hp =>
    have hne : keyword.lexeme ≠ ρ.old := fun heq => hρ.this (heq.symm.trans hp)
    .this (gives_keyword hne ht _ _)
  | .super _ keyword _,.super _ ht _,hp =>
    have hne : keyword.lexeme ≠ ρ.old := fun heq => hρ.super (heq.symm.trans hp)
    .super (gives_keyword hne ht _ _)

theorem Expr.listRename_renamed (hρ : ρ.Local outer) (n : Nat) : ∀ es : List Expr,
    Expr.ListAlike (ρ.apart bound heof) es es → Expr.ListProper es →
      Expr.ListRenamed (ρ.rebind bound) (within outer n) es (Expr.listRename ρ n es)
  | [],_,_ => .nil
  | e :: es,.cons h hs,hp => .cons (e.rename_renamed hρ n h hp.1) (Expr.listRename_renamed hρ n es hs hp.2)

end

theorem Expr.optionRename_renamed (hρ : ρ.Local outer) (n : Nat) : ∀ e : Option Expr,
    Expr.OptionAlike (ρ.apart bound heof) e e → Expr.OptionProper e →
      Expr.OptionRenamed (ρ.rebind bound) (within outer n) e (Expr.optionRename ρ n e)
  | .none,_,_ => .none
  | .some e,.some h,hp => .some (e.rename_renamed hρ n h hp)

theorem Expr.IsVariable.proper {e : Expr} (h : e.IsVariable) : e.Proper := by
  obtain ⟨id,name,rfl⟩ := h
  trivial

namespace Stmt

/-- A name that is declared here can only be that of a variable. -/
def Yields (s : Stmt) (name : String) : Prop := s.declared? = some name → s.varName?.isSome

theorem yields_of_none {s : Stmt} (h : s.declared? = none) (name : String) : s.Yields name := by
  simp [Yields,h]

/-- The name of a function or a class is another one. -/
theorem Yields.ne {s : Stmt} {x name : String} (h : s.Yields x) (hdeclared : s.declared? = some name)
    (hvariable : s.varName? = none) : name ≠ x := by
  rintro rfl
  simpa [hvariable] using h hdeclared

mutual

/-- A statement is renamed that stands in the scope of the variable or further inside. -/
theorem rename_renamed (hρ : ρ.Local outer) : ∀ (n : Nat) (s : Stmt), s.Alike (ρ.apart bound heof) s → s.Proper →
    (n = 0 → s.Yields ρ.old) → s.Renamed (ρ.rebind bound) (within outer n) (s.rename ρ n)
  | n,.expression e,.expression h,hp,_ => .expression (e.rename_renamed hρ n h hp)
  | n,.print e,.print h,hp,_ => .print (e.rename_renamed hρ n h hp)
  | n,.var _ initializer,.var ht h,hp,_ =>
    .var (gives_variable outer n ht) (Expr.optionRename_renamed hρ n initializer h hp.2)
  | n,.block body,.block h,hp,_ => .block (listRename_renamed hρ (n + 1) body h hp (by simp))
  | n,.branch condition thenBranch elseBranch,.branch he ha hb,hp,_ =>
    .branch (condition.rename_renamed hρ n he hp.1)
      (rename_renamed hρ n thenBranch ha hp.2.1.1 fun _ => yields_of_none hp.2.1.2 _)
      (optionRename_renamed hρ n elseBranch hb hp.2.2)
  | n,.loop condition body,.loop he h,hp,_ =>
    .loop (condition.rename_renamed hρ n he hp.1)
      (rename_renamed hρ n body h hp.2.1 fun _ => yields_of_none hp.2.2 _)
  | n,.function d,.function h,hp,hy =>
    have hne (h0 : n = 0) : d.name.lexeme ≠ ρ.old := (hy h0).ne rfl rfl
    .function (gives_name outer hne h.name) (functionRename_renamed hρ (n + 1) d h hp (by simp))
  | n,.return _ value,.return _ h,hp,_ => .return (Expr.optionRename_renamed hρ n value h hp)
  | n,.class name none methods,.class ht .none hs,hp,hy =>
    have hne (h0 : n = 0) : name.lexeme ≠ ρ.old := (hy h0).ne rfl rfl
    .class (gives_name outer hne ht) .none (methodRename_renamed hρ (n + 1) methods hs hp.2.2)
  | n,.class name (some e) methods,.class ht (.some he) hs,hp,hy =>
    have hne (h0 : n = 0) : name.lexeme ≠ ρ.old := (hy h0).ne rfl rfl
    .class (gives_name outer hne ht) (.some (e.rename_renamed hρ n he (hp.2.1 e rfl).proper))
      (methodRename_renamed hρ (n + 2) methods hs hp.2.2)

theorem optionRename_renamed (hρ : ρ.Local outer) : ∀ (n : Nat) (s : Option Stmt),
    OptionAlike (ρ.apart bound heof) s s → OptionProper s →
      OptionRenamed (ρ.rebind bound) (within outer n) s (optionRename ρ n s)
  | _,.none,_,_ => .none
  | n,.some s,.some h,hp => .some (rename_renamed hρ n s h hp.1 fun _ => yields_of_none hp.2 _)

theorem listRename_renamed (hρ : ρ.Local outer) : ∀ (n : Nat) (ss : List Stmt),
    ListAlike (ρ.apart bound heof) ss ss → ListProper ss → (n = 0 → ∀ s ∈ ss, s.Yields ρ.old) →
      ListRenamed (ρ.rebind bound) (within outer n) ss (listRename ρ n ss)
  | _,[],_,_,_ => .nil
  | n,s :: ss,.cons h hs,hp,hy =>
    .cons (rename_renamed hρ n s h hp.1 fun h0 => hy h0 s List.mem_cons_self)
      (listRename_renamed hρ n ss hs hp.2 fun h0 b hb => hy h0 b (List.mem_cons_of_mem _ hb))

/-- The marks are those of the function's own scope and of the scopes around it. -/
theorem functionRename_renamed (hρ : ρ.Local outer) : ∀ (n : Nat) (d : FunctionDecl),
    FunctionAlike (ρ.apart bound heof) d d → FunctionProper d → (n = 0 → ∀ s ∈ d.body, s.Yields ρ.old) →
      FunctionRenamed (ρ.rebind bound) (within outer n).tail d (functionRename ρ n d)
  | n,⟨_,parameters,body⟩,.mk _ hps h,hp,hy => by
    have hbody := listRename_renamed hρ n body h hp.2.2 hy
    have hparameters : List.Forall₂ ((ρ.rebind bound).Gives (within outer n) (decide (n = 0))) parameters
        (parameters.map (ρ.token (decide (n = 0)))) :=
      List.forall₂_map_right_iff.mpr (List.forall₂_same.mpr fun p hp =>
        ⟨rfl,fun _ => (List.forall₂_same.mp hps p hp).2⟩)
    cases n with
    | zero => exact .mk hparameters hbody
    | succ n => exact .mk hparameters hbody

theorem methodRename_renamed (hρ : ρ.Local outer) : ∀ (n : Nat) (ds : List FunctionDecl),
    FunctionsAlike (ρ.apart bound heof) ds ds → ListFunctionProper ds →
      FunctionsRenamed (ρ.rebind bound) (within outer n) ds (methodRename ρ n ds)
  | _,[],_,_ => .nil
  | n,d :: ds,.cons h hs,hp =>
    .cons (functionRename_renamed hρ (n + 1) d h hp.1 (by simp)) (methodRename_renamed hρ n ds hs hp.2)

end

end Stmt

end Lox

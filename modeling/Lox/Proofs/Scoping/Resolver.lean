import Lox.Binding
import Lox.Proofs.Syntax.Proper

/-! What scoping does to the scopes around a point: an expression leaves them as they are, a statement
marks at most one name in the innermost one, and nothing that has been found is ever dropped. -/
namespace Lox

namespace Bindings

variable {α : Type}

@[simp] theorem find?_emptyCollection (name : String) : (∅ : Bindings α).find? name = none := rfl

@[simp] theorem contains_emptyCollection (name : String) :
    (∅ : Bindings α).contains name = false := rfl

theorem insert_insert (b : Bindings α) (name : String) (v w : α) :
    (b.insert name v).insert name w = b.insert name w := by
  obtain ⟨entries⟩ := b
  simp only [insert,mk.injEq]
  induction entries with
  | nil => simp [insertEntry]
  | cons e entries ih =>
    obtain ⟨other,old⟩ := e
    by_cases h : name = other
    · simp [insertEntry,h]
    · simp [insertEntry,h,ih]

theorem contains_insert (b : Bindings α) (name other : String) (v : α) :
    (b.insert name v).contains other = (decide (other = name) || b.contains other) := by
  by_cases h : other = name <;> simp [contains,find?_insert,h]

end Bindings

namespace Scoping

variable {around : Surroundings}

/-- The scopes after a name has been marked in the innermost one. -/
def marked (name : String) (defined : Bool) : List (Bindings Bool) → List (Bindings Bool)
  | [] => []
  | scope :: scopes => scope.insert name defined :: scopes

@[simp] theorem marked_tail (name : String) (defined : Bool) (scopes : List (Bindings Bool)) :
    (marked name defined scopes).tail = scopes.tail := by
  cases scopes <;> rfl

@[simp] theorem marked_marked (name : String) (a b : Bool) (scopes : List (Bindings Bool)) :
    marked name b (marked name a scopes) = marked name b scopes := by
  cases scopes <;> simp [marked,Bindings.insert_insert]

/-! ### Elementary steps -/

@[simp] theorem find_scopes (s : Scoping) (f : Finding) : (s.find f).scopes = s.scopes := rfl

@[simp] theorem find_findings (s : Scoping) (f : Finding) :
    (s.find f).findings = f :: s.findings := rfl

@[simp] theorem fail_scopes (s : Scoping) (fault : StaticFault) (t : Token) :
    (s.fail fault t).scopes = s.scopes := rfl

@[simp] theorem fail_findings (s : Scoping) (fault : StaticFault) (t : Token) :
    (s.fail fault t).findings = .fault (.static fault t) :: s.findings := rfl

@[simp] theorem refer_scopes (s : Scoping) (id : ExprId) (name : Token) :
    (s.refer id name).scopes = s.scopes := rfl

@[simp] theorem refer_findings (s : Scoping) (id : ExprId) (name : Token) :
    (s.refer id name).findings =
      .occurrence id name.lexeme (depth? s.scopes name.lexeme) :: s.findings := rfl

@[simp] theorem enter_scopes (s : Scoping) : s.enter.scopes = ∅ :: s.scopes := rfl

@[simp] theorem enter_findings (s : Scoping) : s.enter.findings = s.findings := rfl

@[simp] theorem leave_scopes (s : Scoping) : s.leave.scopes = s.scopes.tail := rfl

@[simp] theorem leave_findings (s : Scoping) : s.leave.findings = s.findings := rfl

@[simp] theorem mark_scopes (s : Scoping) (name : String) (defined : Bool) :
    (s.mark name defined).scopes = marked name defined s.scopes := by
  obtain ⟨scopes,findings⟩ := s
  cases scopes <;> rfl

@[simp] theorem mark_findings (s : Scoping) (name : String) (defined : Bool) :
    (s.mark name defined).findings = s.findings := by
  obtain ⟨scopes,findings⟩ := s
  cases scopes <;> rfl

@[simp] theorem declare_scopes (s : Scoping) (name : Token) :
    (s.declare name).scopes = marked name.lexeme false s.scopes := by
  obtain ⟨scopes,findings⟩ := s
  cases scopes with
  | nil => rfl
  | cons scope scopes =>
    simp only [declare]
    split <;> simp

theorem declare_findings (s : Scoping) (name : Token) : s.findings ⊆ (s.declare name).findings := by
  obtain ⟨scopes,findings⟩ := s
  cases scopes with
  | nil => exact List.Subset.refl _
  | cons scope scopes =>
    simp only [declare]
    split <;> simp

@[simp] theorem define_scopes (s : Scoping) (name : Token) :
    (s.define name).scopes = marked name.lexeme true s.scopes := mark_scopes s _ _

@[simp] theorem define_findings (s : Scoping) (name : Token) : (s.define name).findings = s.findings :=
  mark_findings s _ _

theorem declare_define_scopes (s : Scoping) (name : Token) :
    ((s.declare name).define name).scopes = marked name.lexeme true s.scopes := by
  simp

/-! ### Expressions -/

mutual

theorem expr_scopes : ∀ (e : Expr) (s : Scoping), (expr around e s).scopes = s.scopes
  | .literal _,_ => rfl
  | .grouping inner,s => expr_scopes inner s
  | .unary _ right,s => expr_scopes right s
  | .binary left _ right,s | .logical left _ right,s =>
    (expr_scopes right _).trans (expr_scopes left s)
  | .ternary condition ifTrue ifFalse,s =>
    (expr_scopes ifFalse _).trans ((expr_scopes ifTrue _).trans (expr_scopes condition s))
  | .variable id name,s => by
    simp only [expr]
    split <;> simp
  | .assign _ _ value,s => expr_scopes value s
  | .call callee _ arguments,s => (exprs_scopes arguments _).trans (expr_scopes callee s)
  | .get object _,s => expr_scopes object s
  | .set object _ value,s => (expr_scopes object _).trans (expr_scopes value s)
  | .this _ _,s => by
    simp only [expr]
    split <;> simp
  | .super _ _ _,s => by
    simp only [expr]
    split <;> simp

theorem exprs_scopes : ∀ (es : List Expr) (s : Scoping), (exprs around es s).scopes = s.scopes
  | [],_ => rfl
  | e :: es,s => (exprs_scopes es _).trans (expr_scopes e s)

end

mutual

theorem expr_findings : ∀ (e : Expr) (s : Scoping), s.findings ⊆ (expr around e s).findings
  | .literal _,_ => List.Subset.refl _
  | .grouping inner,s => expr_findings inner s
  | .unary _ right,s => expr_findings right s
  | .binary left _ right,s | .logical left _ right,s =>
    List.Subset.trans (expr_findings left s) (expr_findings right _)
  | .ternary condition ifTrue ifFalse,s =>
    List.Subset.trans (expr_findings condition s)
      (List.Subset.trans (expr_findings ifTrue _) (expr_findings ifFalse _))
  | .variable id name,s => by
    simp only [expr]
    split <;> intro f hf <;> simp [hf]
  | .assign _ _ value,s => List.Subset.trans (expr_findings value s) (by simp [expr])
  | .call callee _ arguments,s =>
    List.Subset.trans (expr_findings callee s) (exprs_findings arguments _)
  | .get object _,s => expr_findings object s
  | .set object _ value,s =>
    List.Subset.trans (expr_findings value s) (expr_findings object _)
  | .this _ _,s => by
    simp only [expr]
    split <;> simp
  | .super _ _ _,s => by
    simp only [expr]
    split <;> simp

theorem exprs_findings : ∀ (es : List Expr) (s : Scoping), s.findings ⊆ (exprs around es s).findings
  | [],_ => List.Subset.refl _
  | e :: es,s => List.Subset.trans (expr_findings e s) (exprs_findings es _)

end

theorem optional_scopes (e : Option Expr) (s : Scoping) : (optional around e s).scopes = s.scopes := by
  cases e with
  | none => rfl
  | some e => exact expr_scopes e s

theorem optional_findings (e : Option Expr) (s : Scoping) :
    s.findings ⊆ (optional around e s).findings := by
  cases e with
  | none => exact List.Subset.refl _
  | some e => exact expr_findings e s

theorem checkSuperclass_scopes (name : Token) (superclass : Expr) (s : Scoping) :
    (checkSuperclass name superclass s).scopes = s.scopes := by
  unfold checkSuperclass
  split
  · split <;> simp
  · rfl

theorem checkSuperclass_findings (name : Token) (superclass : Expr) (s : Scoping) :
    s.findings ⊆ (checkSuperclass name superclass s).findings := by
  unfold checkSuperclass
  split
  · split <;> simp
  · exact List.Subset.refl _

/-! ### Statements -/

theorem parameters_scopes (parameters : List Token) (s : Scoping) :
    (parameters.foldl (fun s p => (s.declare p).define p) s).scopes =
      parameters.foldl (fun scopes p => marked p.lexeme true scopes) s.scopes := by
  induction parameters generalizing s with
  | nil => rfl
  | cons p parameters ih => simp only [List.foldl_cons,ih,declare_define_scopes]

theorem parameters_tail (parameters : List Token) (scopes : List (Bindings Bool)) :
    (parameters.foldl (fun scopes p => marked p.lexeme true scopes) scopes).tail = scopes.tail := by
  induction parameters generalizing scopes with
  | nil => rfl
  | cons p parameters ih => simp only [List.foldl_cons,ih,marked_tail]

theorem parameters_findings (parameters : List Token) (s : Scoping) :
    s.findings ⊆ (parameters.foldl (fun s p => (s.declare p).define p) s).findings := by
  induction parameters generalizing s with
  | nil => exact List.Subset.refl _
  | cons p parameters ih =>
    have hfirst : s.findings ⊆ ((s.declare p).define p).findings := by
      simpa using declare_findings s p
    exact List.Subset.trans hfirst (ih _)

mutual

theorem stmt_tail {around : Surroundings} :
    ∀ (b : Stmt) (s : Scoping), (stmt around b s).scopes.tail = s.scopes.tail
  | .expression e,s | .print e,s => by rw [stmt,expr_scopes]
  | .var name initializer,s => by simp [stmt,optional_scopes]
  | .block body,s => by
    have h : (stmts around body s.enter).scopes.tail = s.scopes := stmts_tail body s.enter
    simp [stmt,h]
  | .branch condition thenBranch elseBranch,s => by
    rw [stmt,stmt?_tail elseBranch,stmt_tail thenBranch,expr_scopes]
  | .loop condition body,s => by rw [stmt,stmt_tail body,expr_scopes]
  | .function d,s => by simp [stmt,function_scopes d]
  | .return keyword value,s => by
    cases value with
    | none =>
      simp only [stmt]
      split <;> simp
    | some e =>
      simp only [stmt,expr_scopes]
      split <;> split <;> simp
  | .class name superclass methods,s => by
    cases superclass with
    | none => simp [stmt,functions_scopes methods]
    | some parent => simp [stmt,functions_scopes methods,expr_scopes,checkSuperclass_scopes]

theorem stmt?_tail {around : Surroundings} :
    ∀ (b : Option Stmt) (s : Scoping), (stmt? around b s).scopes.tail = s.scopes.tail
  | none,_ => rfl
  | some b,s => stmt_tail b s

theorem stmts_tail {around : Surroundings} :
    ∀ (bs : List Stmt) (s : Scoping), (stmts around bs s).scopes.tail = s.scopes.tail
  | [],_ => rfl
  | b :: bs,s => (stmts_tail bs _).trans (stmt_tail b s)

theorem function_scopes {around : Surroundings} {context : FunctionContext} :
    ∀ (d : FunctionDecl) (s : Scoping), (function around context d s).scopes = s.scopes
  | ⟨_,parameters,body⟩,s => by
    simp [function,stmts_tail body,parameters_scopes,parameters_tail]

theorem functions_scopes {around : Surroundings} :
    ∀ (ds : List FunctionDecl) (s : Scoping), (functions around ds s).scopes = s.scopes
  | [],_ => rfl
  | d :: ds,s => (functions_scopes ds _).trans (function_scopes d s)

end

mutual

theorem stmt_findings {around : Surroundings} :
    ∀ (b : Stmt) (s : Scoping), s.findings ⊆ (stmt around b s).findings
  | .expression e,s | .print e,s => expr_findings e s
  | .var name initializer,s => by
    have hvalue : _ ⊆ (optional around initializer (s.declare name)).findings :=
      optional_findings initializer (s.declare name)
    simpa [stmt] using List.Subset.trans (declare_findings s name) hvalue
  | .block body,s => stmts_findings body s.enter
  | .branch condition thenBranch elseBranch,s =>
    List.Subset.trans (expr_findings condition s)
      (List.Subset.trans (stmt_findings thenBranch _) (stmt?_findings elseBranch _))
  | .loop condition body,s =>
    List.Subset.trans (expr_findings condition s) (stmt_findings body _)
  | .function d,s => by
    have hname : s.findings ⊆ ((s.declare d.name).define d.name).findings := by
      simpa using declare_findings s d.name
    exact List.Subset.trans hname (function_findings d _)
  | .return keyword value,s => by
    have hplain : s.findings ⊆ (if around.inFunction = .none
        then s.fail .returnOutsideFunction keyword else s).findings := by
      split <;> simp
    have hvalue (s : Scoping) : s.findings ⊆ (if around.inFunction = .initializer
        then s.fail .returnFromInitializer keyword else s).findings := by
      split <;> simp
    cases value with
    | none => exact hplain
    | some e => exact List.Subset.trans hplain (List.Subset.trans (hvalue _) (expr_findings e _))
  | .class name superclass methods,s => by
    have hname : s.findings ⊆ ((s.declare name).define name).findings := by
      simpa using declare_findings s name
    cases superclass with
    | none =>
      have hmethods (inside : Surroundings) (s : Scoping) :
          s.findings ⊆ (functions inside methods (s.enter.mark "this" true)).findings := by
        simpa using functions_findings methods (s.enter.mark "this" true)
      simp only [stmt,find_findings,leave_findings]
      exact List.Subset.trans hname (List.Subset.trans (hmethods _ _) (List.subset_cons_self _ _))
    | some parent =>
      have hmethods (inside : Surroundings) (s : Scoping) : s.findings ⊆
          (functions inside methods ((s.enter.mark "super" true).enter.mark "this" true)).findings := by
        simpa using functions_findings methods ((s.enter.mark "super" true).enter.mark "this" true)
      simp only [stmt,find_findings,leave_findings]
      have hparent (inside : Surroundings) (s : Scoping) :
          s.findings ⊆ (expr inside parent (checkSuperclass name parent s)).findings :=
        List.Subset.trans (checkSuperclass_findings name parent s) (expr_findings parent _)
      exact List.Subset.trans hname
        (List.Subset.trans (hparent _ _) (List.Subset.trans (hmethods _ _) (List.subset_cons_self _ _)))

theorem stmt?_findings {around : Surroundings} :
    ∀ (b : Option Stmt) (s : Scoping), s.findings ⊆ (stmt? around b s).findings
  | none,_ => List.Subset.refl _
  | some b,s => stmt_findings b s

theorem stmts_findings {around : Surroundings} :
    ∀ (bs : List Stmt) (s : Scoping), s.findings ⊆ (stmts around bs s).findings
  | [],_ => List.Subset.refl _
  | b :: bs,s => List.Subset.trans (stmt_findings b s) (stmts_findings bs _)

theorem function_findings {around : Surroundings} {context : FunctionContext} :
    ∀ (d : FunctionDecl) (s : Scoping), s.findings ⊆ (function around context d s).findings
  | ⟨_,parameters,body⟩,s => by
    have hparameters := parameters_findings parameters s.enter
    exact List.Subset.trans hparameters (stmts_findings body _)

theorem functions_findings {around : Surroundings} :
    ∀ (ds : List FunctionDecl) (s : Scoping), s.findings ⊆ (functions around ds s).findings
  | [],_ => List.Subset.refl _
  | d :: ds,s => List.Subset.trans (function_findings d s) (functions_findings ds _)

end

/-- The scopes behind a statement that declares the given name, if any. -/
def markedIf (name : Option String) (scopes : List (Bindings Bool)) : List (Bindings Bool) :=
  match name with
  | none => scopes
  | some name => marked name true scopes

mutual

/-- A statement marks the name that it declares, and no other. -/
theorem stmt_scopes {around : Surroundings} : ∀ (b : Stmt) (s : Scoping), b.Proper →
    (stmt around b s).scopes = markedIf b.declared? s.scopes
  | .expression e,s,_ | .print e,s,_ => expr_scopes e s
  | .var name initializer,s,_ => by simp [stmt,optional_scopes,Stmt.declared?,markedIf]
  | .block body,s,_ => by
    have h : (stmts around body s.enter).scopes.tail = s.scopes := stmts_tail body s.enter
    simp [stmt,h,Stmt.declared?,markedIf]
  | .branch condition thenBranch elseBranch,s,⟨_,⟨hthen,hdeclared⟩,helse⟩ => by
    rw [stmt,stmt?_scopes elseBranch _ helse,stmt_scopes thenBranch _ hthen,hdeclared]
    exact expr_scopes condition s
  | .loop condition body,s,⟨_,hbody,hdeclared⟩ => by
    rw [stmt,stmt_scopes body _ hbody,hdeclared]
    exact expr_scopes condition s
  | .function d,s,_ => by simp [stmt,function_scopes d,Stmt.declared?,markedIf]
  | .return keyword value,s,_ => by
    cases value with
    | none =>
      simp only [stmt]
      split <;> simp [Stmt.declared?,markedIf]
    | some e =>
      simp only [stmt,expr_scopes]
      split <;> split <;> simp [Stmt.declared?,markedIf]
  | .class name superclass methods,s,_ => by
    cases superclass with
    | none => simp [stmt,functions_scopes methods,Stmt.declared?,markedIf]
    | some parent =>
      simp [stmt,functions_scopes methods,expr_scopes,checkSuperclass_scopes,Stmt.declared?,markedIf]

theorem stmt?_scopes {around : Surroundings} : ∀ (b : Option Stmt) (s : Scoping),
    Stmt.OptionProper b → (stmt? around b s).scopes = s.scopes
  | none,_,_ => rfl
  | some b,s,⟨hproper,hdeclared⟩ => by
    rw [stmt?,stmt_scopes b s hproper,hdeclared]
    rfl

end

end Scoping
end Lox

import Lox.Proofs.Scoping.Context

/-! Parts of a program with the points they stand at: whatever scoping finds in a part from there, it
finds in the program. -/
namespace Lox

/-- What scoping finds in a program. -/
def findings (program : List Stmt) : List Finding :=
  (Scoping.stmts ⟨.none,.none⟩ program ⟨[],[]⟩).findings

/-- All occurrences of a program, with their places. -/
def places (program : List Stmt) : List (ExprId × Place) := Stmt.listOccurrences [] program

/-- A part of a program at a point, by the way scoping passes over it and the occurrences in it. -/
structure Covered (program : List Stmt) (c : Context) (pass : Scoping → Scoping)
    (occurrences : List (ExprId × Place)) : Prop where
  findings : ∃ s : Scoping, s.scopes = c.scopes ∧ (pass s).findings ⊆ findings program
  occurrences : occurrences ⊆ places program

namespace Covered

variable {program : List Stmt} {c k : Context} {f g : Scoping → Scoping} {a b : List (ExprId × Place)}

theorem fst (h : Covered program c (fun s => g (f s)) (a ++ b))
    (hg : ∀ s, s.findings ⊆ (g s).findings) : Covered program c f a where
  findings := by
    obtain ⟨s,hs,hfindings⟩ := h.findings
    exact ⟨s,hs,List.Subset.trans (hg (f s)) hfindings⟩
  occurrences := List.Subset.trans (List.subset_append_left a b) h.occurrences

/-- What is passed over first may change the scopes. -/
theorem snd (h : Covered program c (fun s => g (f s)) (a ++ b))
    (hf : ∀ s, s.scopes = c.scopes → (f s).scopes = k.scopes) : Covered program k g b where
  findings := by
    obtain ⟨s,hs,hfindings⟩ := h.findings
    exact ⟨f s,hf s hs,hfindings⟩
  occurrences := List.Subset.trans (List.subset_append_right a b) h.occurrences

theorem mono (h : Covered program c f a) (hfg : ∀ s, s.scopes = c.scopes →
    ∃ s' : Scoping, s'.scopes = k.scopes ∧ (g s').findings ⊆ (f s).findings) (hb : b ⊆ a) :
    Covered program k g b where
  findings := by
    obtain ⟨s,hs,hfindings⟩ := h.findings
    obtain ⟨s',hs',hsub⟩ := hfg s hs
    exact ⟨s',hs',List.Subset.trans hsub hfindings⟩
  occurrences := List.Subset.trans hb h.occurrences

end Covered

/-- Scoping finds no fault in the program. -/
def Accepted (program : List Stmt) : Prop := ∀ e, .fault e ∉ findings program

theorem Accepted.not_fail {program : List Stmt} (h : Accepted program) {s : Scoping}
    {fault : StaticFault} {t : Token} : ¬(s.fail fault t).findings ⊆ findings program :=
  fun hfindings => h _ (hfindings List.mem_cons_self)

/-- An occurrence of a program, with its place and the depth that scoping finds for its name. -/
structure Recorded (program : List Stmt) (c : Context) (id : ExprId) (name : String) : Prop where
  finding : .occurrence id name (Scoping.depth? c.scopes name) ∈ findings program
  place : (id,c.place) ∈ places program

/-- An expression of a program and the point it stands at. -/
structure ExprIn (program : List Stmt) (c : Context) (e : Expr) : Prop where
  proper : e.Proper
  covered : Covered program c (Scoping.expr c.around e) (e.occurrences c.place)

structure ExprsIn (program : List Stmt) (c : Context) (es : List Expr) : Prop where
  proper : Expr.ListProper es
  covered : Covered program c (Scoping.exprs c.around es) (Expr.listOccurrences c.place es)

structure OptionIn (program : List Stmt) (c : Context) (e : Option Expr) : Prop where
  proper : Expr.OptionProper e
  covered : Covered program c (Scoping.optional c.around e) (Expr.optionOccurrences c.place e)

theorem OptionIn.some {program : List Stmt} {c : Context} {e : Expr} (h : OptionIn program c (some e)) :
    ExprIn program c e :=
  ⟨h.proper,h.covered⟩

namespace ExprIn

open Scoping

variable {program : List Stmt} {c : Context}

theorem grouping {e : Expr} (h : ExprIn program c (.grouping e)) : ExprIn program c e :=
  ⟨h.proper,h.covered⟩

theorem unary {operator : Token} {e : Expr} (h : ExprIn program c (.unary operator e)) :
    ExprIn program c e :=
  ⟨h.proper.2,h.covered⟩

/-- Two expressions, one after the other. -/
theorem pair {e₁ e₂ : Expr} {a b : List (ExprId × Place)}
    (h : Covered program c (fun s => expr c.around e₂ (expr c.around e₁ s)) (a ++ b)) :
    Covered program c (expr c.around e₁) a ∧ Covered program c (expr c.around e₂) b :=
  ⟨h.fst (g := expr c.around e₂) (expr_findings e₂),
    h.snd (f := expr c.around e₁) fun s hs => (expr_scopes e₁ s).trans hs⟩

theorem binary {left operator right} (h : ExprIn program c (.binary left operator right)) :
    ExprIn program c left ∧ ExprIn program c right := by
  obtain ⟨hleft,hright⟩ := pair h.covered
  exact ⟨⟨h.proper.2.1,hleft⟩,h.proper.2.2,hright⟩

theorem logical {left operator right} (h : ExprIn program c (.logical left operator right)) :
    ExprIn program c left ∧ ExprIn program c right := by
  obtain ⟨hleft,hright⟩ := pair h.covered
  exact ⟨⟨h.proper.1,hleft⟩,h.proper.2,hright⟩

theorem ternary {condition ifTrue ifFalse : Expr}
    (h : ExprIn program c (.ternary condition ifTrue ifFalse)) :
    ExprIn program c condition ∧ ExprIn program c ifTrue ∧ ExprIn program c ifFalse := by
  have hcovered := h.covered
  have hcondition := hcovered.fst (f := expr c.around condition)
    (g := fun s => expr c.around ifFalse (expr c.around ifTrue s))
    fun s => List.Subset.trans (expr_findings ifTrue s) (expr_findings ifFalse _)
  have hbranches := hcovered.snd (k := c) (f := expr c.around condition)
    (g := fun s => expr c.around ifFalse (expr c.around ifTrue s))
    fun s hs => (expr_scopes condition s).trans hs
  obtain ⟨htrue,hfalse⟩ := pair hbranches
  exact ⟨⟨h.proper.1,hcondition⟩,⟨h.proper.2.1,htrue⟩,h.proper.2.2,hfalse⟩

theorem assign {id name value} (h : ExprIn program c (.assign id name value)) :
    ExprIn program c value ∧ name.IsName ∧ Recorded program c id name.lexeme := by
  have hcovered := h.covered
  have hvalue := hcovered.fst (f := expr c.around value) (g := fun s => s.refer id name) (by simp)
  obtain ⟨s,hs,hfindings⟩ := hcovered.findings
  refine ⟨⟨h.proper.2,hvalue⟩,h.proper.1,hfindings ?_,hcovered.occurrences ?_⟩
  · simp [expr,expr_scopes,hs]
  · simp [Expr.occurrences]

theorem call {callee paren arguments} (h : ExprIn program c (.call callee paren arguments)) :
    ExprIn program c callee ∧ ExprsIn program c arguments := by
  have hcovered := h.covered
  have hcallee := hcovered.fst (f := expr c.around callee) (g := exprs c.around arguments)
    (exprs_findings arguments)
  have harguments := hcovered.snd (k := c) (f := expr c.around callee) (g := exprs c.around arguments)
    fun s hs => (expr_scopes callee s).trans hs
  exact ⟨⟨h.proper.1,hcallee⟩,h.proper.2,harguments⟩

theorem get {object name} (h : ExprIn program c (.get object name)) : ExprIn program c object :=
  ⟨h.proper,h.covered⟩

theorem set {object name value} (h : ExprIn program c (.set object name value)) :
    ExprIn program c object ∧ ExprIn program c value := by
  obtain ⟨hvalue,hobject⟩ := pair h.covered
  exact ⟨⟨h.proper.1,hobject⟩,h.proper.2,hvalue⟩

/-- A name that is read is not marked as undefined in the innermost scope. -/
theorem identifier {id name} (haccepted : Accepted program) (h : ExprIn program c (.variable id name)) :
    Recorded program c id name.lexeme ∧ ∀ f ∈ c.frames.head?, f.names.find? name.lexeme ≠ some false := by
  obtain ⟨⟨scopes,found⟩,rfl,hfindings⟩ := h.covered.findings
  simp only [expr] at hfindings
  split at hfindings
  next => exact absurd (List.Subset.trans (List.subset_cons_self _ _) hfindings) haccepted.not_fail
  next hown =>
    refine ⟨⟨hfindings (by simp),h.covered.occurrences (by simp [Expr.occurrences])⟩,?_⟩
    intro f hf hname
    cases hframes : c.frames with
    | nil => simp [hframes] at hf
    | cons first frames =>
      obtain rfl : first = f := by simpa [hframes] using hf
      simp [inOwnInitializer,Context.scopes,hframes,hname] at hown

theorem this {id keyword} (haccepted : Accepted program) (h : ExprIn program c (.this id keyword)) :
    Recorded program c id "this" ∧ c.around.inClass ≠ .none := by
  obtain ⟨s,hs,hfindings⟩ := h.covered.findings
  have hkeyword : keyword.lexeme = "this" := h.proper
  simp only [expr] at hfindings
  split at hfindings
  next => exact absurd hfindings haccepted.not_fail
  all_goals
    next hclass =>
      refine ⟨⟨hfindings ?_,h.covered.occurrences (by simp [Expr.occurrences])⟩,by simp [hclass]⟩
      simp [hkeyword,hs]

theorem super {id keyword method} (haccepted : Accepted program)
    (h : ExprIn program c (.super id keyword method)) :
    Recorded program c id "super" ∧ c.around.inClass = .subclass := by
  obtain ⟨s,hs,hfindings⟩ := h.covered.findings
  have hkeyword : keyword.lexeme = "super" := h.proper
  simp only [expr] at hfindings
  split at hfindings
  next => exact absurd hfindings haccepted.not_fail
  next => exact absurd hfindings haccepted.not_fail
  next hclass =>
    refine ⟨⟨hfindings ?_,h.covered.occurrences (by simp [Expr.occurrences])⟩,hclass⟩
    simp [hkeyword,hs]

end ExprIn

theorem ExprsIn.cons {program : List Stmt} {c : Context} {e : Expr} {es : List Expr}
    (h : ExprsIn program c (e :: es)) : ExprIn program c e ∧ ExprsIn program c es := by
  have hcovered := h.covered
  have hfirst := hcovered.fst (f := Scoping.expr c.around e) (g := Scoping.exprs c.around es)
    (Scoping.exprs_findings es)
  have hothers := hcovered.snd (k := c) (f := Scoping.expr c.around e) (g := Scoping.exprs c.around es)
    fun s hs => (Scoping.expr_scopes e s).trans hs
  exact ⟨⟨h.proper.1,hfirst⟩,h.proper.2,hothers⟩

/-- A statement of a program and the point it stands at. What it declares belongs to the construct
around it. -/
structure StmtIn (program : List Stmt) (c : Context) (s : Stmt) : Prop where
  proper : s.Proper
  covered : Covered program c (Scoping.stmt c.around s) (s.occurrences c.sites)
  declares : ∀ name, s.declared? = some name → ∀ f ∈ c.frames.head?, f.site.Declares name

structure StmtsIn (program : List Stmt) (c : Context) (ss : List Stmt) : Prop where
  proper : Stmt.ListProper ss
  covered : Covered program c (Scoping.stmts c.around ss) (Stmt.listOccurrences c.sites ss)
  declares : ∀ s ∈ ss, ∀ name, s.declared? = some name → ∀ f ∈ c.frames.head?, f.site.Declares name

structure FunctionIn (program : List Stmt) (c : Context) (context : FunctionContext)
    (d : FunctionDecl) : Prop where
  proper : Stmt.FunctionProper d
  covered : Covered program c (Scoping.function c.around context d) (Stmt.functionOccurrences c.sites d)

namespace StmtIn

open Scoping

variable {program : List Stmt} {c : Context}

theorem expression {e : Expr} (h : StmtIn program c (.expression e)) (hinit : c.initializing = none) :
    ExprIn program c e := by
  refine ⟨h.proper,h.covered.mono (fun s hs => ⟨s,hs,List.Subset.refl _⟩) ?_⟩
  simp [Stmt.occurrences,Context.place,hinit]

theorem print {e : Expr} (h : StmtIn program c (.print e)) (hinit : c.initializing = none) :
    ExprIn program c e := by
  refine ⟨h.proper,h.covered.mono (fun s hs => ⟨s,hs,List.Subset.refl _⟩) ?_⟩
  simp [Stmt.occurrences,Context.place,hinit]

theorem var {name initializer} (h : StmtIn program c (.var name initializer)) :
    OptionIn program (c.initializer name.lexeme) initializer := by
  refine ⟨h.proper.2,h.covered.mono (fun s hs => ⟨s.declare name,by simp [hs],by simp [stmt]⟩) ?_⟩
  simp [Stmt.occurrences]

/-- A name that is declared by a variable is new in its scope. -/
theorem var_new {name initializer} (haccepted : Accepted program)
    (h : StmtIn program c (.var name initializer)) :
    ∀ f ∈ c.frames.head?, f.names.contains name.lexeme = false := by
  intro f hf
  obtain ⟨⟨scopes,found⟩,rfl,hfindings⟩ := h.covered.findings
  have hdeclare : (Scoping.declare ⟨c.scopes,found⟩ name).findings ⊆ findings program := by
    refine List.Subset.trans ?_ hfindings
    simpa [stmt] using optional_findings initializer (Scoping.declare ⟨c.scopes,found⟩ name)
  cases hframes : c.frames with
  | nil => simp [hframes] at hf
  | cons first frames =>
    obtain rfl : first = f := by simpa [hframes] using hf
    simp only [Context.scopes,hframes,List.map_cons,declare] at hdeclare
    split at hdeclare
    next => exact absurd hdeclare haccepted.not_fail
    next hnew => simpa using hnew

theorem block {body} (h : StmtIn program c (.block body)) :
    StmtsIn program (c.enter ⟨.block body,∅⟩) body := by
  refine ⟨h.proper,h.covered.mono (fun s hs => ⟨s.enter,by simp [hs],by simp [stmt,Context.enter]⟩) ?_,?_⟩
  · simp [Stmt.occurrences]
  · intro s hs name hname f hf
    obtain rfl := Option.some.inj hf
    exact ⟨s,hs,hname⟩

theorem branch {condition thenBranch elseBranch} (hinit : c.initializing = none)
    (h : StmtIn program c (.branch condition thenBranch elseBranch)) :
    ExprIn program c condition ∧ StmtIn program c thenBranch ∧
      ∀ b, elseBranch = some b → StmtIn program c b := by
  obtain ⟨hcondition,⟨hthen,hdeclared⟩,helse⟩ := h.proper
  refine ⟨⟨hcondition,h.covered.mono (fun s hs => ⟨s,hs,?_⟩) ?_⟩,
    ⟨hthen,h.covered.mono (fun s hs => ⟨expr c.around condition s,?_,?_⟩) ?_,by simp [hdeclared]⟩,?_⟩
  · simp only [stmt]
    exact List.Subset.trans (stmt_findings thenBranch _) (stmt?_findings elseBranch _)
  · simp [Stmt.occurrences,Context.place,hinit]
  · simpa [expr_scopes] using hs
  · simpa only [stmt] using stmt?_findings elseBranch _
  · simp [Stmt.occurrences]
  · rintro b rfl
    obtain ⟨hb,hnone⟩ := helse
    refine ⟨hb,h.covered.mono (fun s hs => ⟨stmt c.around thenBranch (expr c.around condition s),?_,?_⟩) ?_,
      by simp [hnone]⟩
    · rw [stmt_scopes thenBranch _ hthen,hdeclared]
      simpa [expr_scopes,markedIf] using hs
    · simp [stmt,stmt?]
    · simp [Stmt.occurrences,Stmt.optionOccurrences]

theorem loop {condition body} (hinit : c.initializing = none)
    (h : StmtIn program c (.loop condition body)) : ExprIn program c condition ∧ StmtIn program c body := by
  obtain ⟨hcondition,hbody,hdeclared⟩ := h.proper
  refine ⟨⟨hcondition,h.covered.mono (fun s hs => ⟨s,hs,stmt_findings body _⟩) ?_⟩,
    hbody,h.covered.mono (fun s hs => ⟨expr c.around condition s,?_,by simp [stmt]⟩) ?_,by simp [hdeclared]⟩
  · simp [Stmt.occurrences,Context.place,hinit]
  · simpa [expr_scopes] using hs
  · simp [Stmt.occurrences]

theorem function {d} (h : StmtIn program c (.function d)) :
    FunctionIn program (c.define d.name.lexeme) .function d := by
  refine ⟨h.proper,h.covered.mono
    (fun s hs => ⟨(s.declare d.name).define d.name,by simp [hs,Context.define],?_⟩) ?_⟩
  · simp [stmt,Context.define]
  · simp [Stmt.occurrences,Context.define]

theorem returning {keyword value} (hinit : c.initializing = none)
    (h : StmtIn program c (.return keyword value)) : OptionIn program c value := by
  refine ⟨h.proper,h.covered.mono ?_ (by simp [Stmt.occurrences,Context.place,hinit])⟩
  intro s hs
  cases value with
  | none => exact ⟨s,hs,stmt_findings _ s⟩
  | some e =>
    simp only [stmt]
    split <;> split <;> exact ⟨_,by simpa using hs,List.Subset.refl _⟩

end StmtIn

theorem StmtsIn.cons {program : List Stmt} {c : Context} {s : Stmt} {ss : List Stmt}
    (h : StmtsIn program c (s :: ss)) :
    StmtIn program c s ∧ StmtsIn program (c.defineIf s.declared?) ss := by
  obtain ⟨hs,hss⟩ := h.proper
  have hcovered := h.covered
  have hfirst := hcovered.fst (f := Scoping.stmt c.around s) (g := Scoping.stmts c.around ss)
    (Scoping.stmts_findings ss)
  have hothers := hcovered.snd (k := c.defineIf s.declared?) (f := Scoping.stmt c.around s)
    (g := Scoping.stmts c.around ss) fun σ hσ => by
      rw [Scoping.stmt_scopes s σ hs,hσ,Context.defineIf_scopes]
  refine ⟨⟨hs,hfirst,h.declares s List.mem_cons_self⟩,hss,by simpa using hothers,?_⟩
  intro b hb name hname f hf
  obtain ⟨g,hg,hsite⟩ := Context.defineIf_head? hf
  exact hsite ▸ h.declares b (List.mem_cons_of_mem s hb) name hname g hg

namespace Scoping

theorem parameters_marked (parameters : List Token) (scope : Bindings Bool)
    (scopes : List (Bindings Bool)) :
    parameters.foldl (fun scopes p => marked p.lexeme true scopes) (scope :: scopes) =
      parameters.foldl (fun names p => names.insert p.lexeme true) scope :: scopes := by
  induction parameters generalizing scope with
  | nil => rfl
  | cons p parameters ih => exact ih _

/-- Each method is passed over with the same scopes around it. -/
theorem function_of_functions {around : Surroundings} {scopes : List (Bindings Bool)} {d : FunctionDecl}
    {found : List Finding} {ds : List FunctionDecl} (hd : d ∈ ds) (s : Scoping) (hs : s.scopes = scopes)
    (h : (functions around ds s).findings ⊆ found) :
    ∃ context s', Scoping.scopes s' = scopes ∧ (function around context d s').findings ⊆ found := by
  induction ds generalizing s with
  | nil => simp at hd
  | cons first ds ih =>
    rcases List.mem_cons.mp hd with rfl | hd
    · exact ⟨_,s,hs,List.Subset.trans (functions_findings ds _) h⟩
    · exact ih hd _ ((function_scopes first s).trans hs) h

end Scoping

namespace Stmt

theorem functionProper_of_mem {d : FunctionDecl} {ds : List FunctionDecl} (h : ListFunctionProper ds)
    (hd : d ∈ ds) : FunctionProper d := by
  induction ds with
  | nil => simp at hd
  | cons first ds ih =>
    rcases List.mem_cons.mp hd with rfl | hd
    · exact h.1
    · exact ih h.2 hd

theorem functionOccurrences_subset (sites : List Site) {d : FunctionDecl} {ds : List FunctionDecl}
    (hd : d ∈ ds) : functionOccurrences (.receiver d :: sites) d ⊆ methodOccurrences sites ds := by
  induction ds with
  | nil => simp at hd
  | cons first ds ih =>
    rcases List.mem_cons.mp hd with rfl | hd
    · exact List.subset_append_left _ _
    · exact List.Subset.trans (ih hd) (List.subset_append_right _ _)

end Stmt

theorem FunctionIn.body {program : List Stmt} {c : Context} {context : FunctionContext}
    {d : FunctionDecl} (h : FunctionIn program c context d) :
    StmtsIn program (c.calling context d) d.body := by
  obtain ⟨name,parameters,body⟩ := d
  refine ⟨((Stmt.functionProper_iff _).mp h.proper).2.2,h.covered.mono
    (fun s hs => ⟨parameters.foldl (fun s p => (s.declare p).define p) s.enter,?_,?_⟩) ?_,?_⟩
  · rw [Scoping.parameters_scopes,Scoping.enter_scopes,Scoping.parameters_marked,hs]
    rfl
  · exact List.Subset.refl _
  · exact List.Subset.refl _
  · intro s hs name hname f hf
    obtain rfl := Option.some.inj hf
    exact .inr ⟨s,hs,hname⟩

namespace StmtIn

open Scoping

variable {program : List Stmt} {c : Context} {name : Token} {superclass : Option Expr}
  {methods : List FunctionDecl}

/-- A class's own name is defined before its superclass is looked up, but never taken for it. -/
theorem superclass_in (haccepted : Accepted program) (hinit : c.initializing = none)
    (h : StmtIn program c (.class name superclass methods)) :
    ∀ e, superclass = some e → ExprIn program c e := by
  rintro e rfl
  obtain ⟨id,parent,rfl⟩ := h.proper.2.1 e rfl
  obtain ⟨s,hs,hfindings⟩ := h.covered.findings
  have hmethods (inside : Surroundings) (s : Scoping) : s.findings ⊆
      (functions inside methods ((s.enter.mark "super" true).enter.mark "this" true)).findings := by
    simpa using functions_findings methods ((s.enter.mark "super" true).enter.mark "this" true)
  have hparent : (expr { c.around with inClass := .subclass } (.variable id parent) (checkSuperclass name
      (.variable id parent) ((s.declare name).define name))).findings ⊆ findings program := by
    refine List.Subset.trans ?_ hfindings
    simp only [stmt,find_findings,leave_findings]
    exact List.Subset.trans (hmethods _ _) (List.subset_cons_self _ _)
  have hself : parent.lexeme ≠ name.lexeme := by
    intro heq
    have hcheck := List.Subset.trans (expr_findings (.variable id parent) _) hparent
    rw [checkSuperclass,if_pos heq] at hcheck
    exact haccepted.not_fail hcheck
  rw [checkSuperclass,if_neg hself] at hparent
  have hdepth : depth? ((s.declare name).define name).scopes parent.lexeme =
      depth? c.scopes parent.lexeme := by
    rw [declare_define_scopes,depth?_marked hself,hs]
  have hown : ((s.declare name).define name).inOwnInitializer parent.lexeme =
      (⟨c.scopes,((s.declare name).define name).findings⟩ : Scoping).inOwnInitializer parent.lexeme := by
    simp only [inOwnInitializer,declare_define_scopes,hs]
    cases c.scopes with
    | nil => rfl
    | cons scope scopes => simp [marked,Bindings.find?_insert,hself]
  refine ⟨trivial,⟨⟨c.scopes,((s.declare name).define name).findings⟩,rfl,?_⟩,?_⟩
  · simp only [expr] at hparent ⊢
    rw [hown] at hparent
    split at hparent
    next => exact absurd (List.Subset.trans (List.subset_cons_self _ _) hparent) haccepted.not_fail
    next hnot =>
      rw [if_neg hnot]
      rw [refer_findings,hdepth] at hparent
      exact hparent
  · refine List.Subset.trans ?_ h.covered.occurrences
    simp [Stmt.occurrences,Expr.optionOccurrences,Expr.occurrences,Context.place,hinit]

theorem methods_in (h : StmtIn program c (.class name superclass methods)) {d : FunctionDecl}
    (hd : d ∈ methods) :
    ∃ context, FunctionIn program ((c.inClass name superclass methods).receiving d) context d := by
  have hproper := Stmt.functionProper_of_mem h.proper.2.2 hd
  have hoccurrences := Stmt.functionOccurrences_subset (c.inClass name superclass methods).sites hd
  rw [Context.inClass_sites] at hoccurrences
  obtain ⟨s,hs,hfindings⟩ := h.covered.findings
  have hplaces := h.covered.occurrences
  have hname : ((s.declare name).define name).scopes = (c.define name.lexeme).scopes := by
    simp [hs,Context.define]
  cases superclass with
  | none =>
    simp only [stmt,find_findings,leave_findings] at hfindings
    obtain ⟨context,s',hs',hfound⟩ := function_of_functions hd _ rfl
      (List.Subset.trans (List.subset_cons_self _ _) hfindings)
    refine ⟨context,hproper,⟨s',hs'.trans ?_,hfound⟩,?_⟩
    · simp only [mark_scopes,enter_scopes,hname]
      rfl
    · rw [Context.receiving,Context.enter_sites,Context.inClass_sites]
      exact List.Subset.trans (List.Subset.trans hoccurrences (List.subset_append_right _ _)) hplaces
  | some parent =>
    simp only [stmt,find_findings,leave_findings] at hfindings
    obtain ⟨context,s',hs',hfound⟩ := function_of_functions hd _ rfl
      (List.Subset.trans (List.subset_cons_self _ _) hfindings)
    refine ⟨context,hproper,⟨s',hs'.trans ?_,hfound⟩,?_⟩
    · simp only [mark_scopes,enter_scopes,expr_scopes,checkSuperclass_scopes,hname]
      rfl
    · rw [Context.receiving,Context.enter_sites,Context.inClass_sites]
      exact List.Subset.trans (List.Subset.trans hoccurrences (List.subset_append_right _ _)) hplaces

end StmtIn

end Lox

import Lox.Proofs.Scoping.Once
import Lox.Proofs.Scoping.Rules
import Lox.Proofs.Syntax.Proper

/-! Scoping reports the violations of its rules and nothing else: a pass over a part of a program finds the
faults of the points of that part, in their order, whatever it is nested in. -/
namespace Lox

/-! ### The constructs around a point -/

def functionContext (around : List Enclosure) : FunctionContext :=
  match innermostFunction? around with
  | none => .none
  | some (.method name _ _) => if name.lexeme = "init" then .initializer else .method
  | some _ => .function

def classContext (around : List Enclosure) : ClassContext :=
  match innermostClass? around with
  | none => .none
  | some none => .plain
  | some (some _) => .subclass

/-- What scoping knows of the functions and classes around a point. -/
def surroundings (around : List Enclosure) : Surroundings := ⟨functionContext around,classContext around⟩

section

variable (around : List Enclosure) (name : Token) (parameters : List Token) (before : List Stmt)

@[simp] theorem surroundings_initializer :
    surroundings (.initializer name :: around) = surroundings around := rfl

@[simp] theorem surroundings_block :
    surroundings (.block before :: around) = surroundings around := rfl

@[simp] theorem surroundings_function : surroundings (.function parameters before :: around) =
    { surroundings around with inFunction := .function } := rfl

@[simp] theorem surroundings_method : surroundings (.method name parameters before :: around) =
    { surroundings around with
      inFunction := if name.lexeme = "init" then .initializer else .method } := rfl

theorem surroundings_class : surroundings (.class none :: around) =
    { surroundings around with inClass := .plain } := rfl

theorem surroundings_subclass (superclass : Expr) : surroundings (.class (some superclass) :: around) =
    { surroundings around with inClass := .subclass } := rfl

end

/-- The innermost scope has the names that are declared in front of a point, each of them defined. There is
none at top level. -/
def Fits : List Enclosure → List (Bindings Bool) → Prop
  | [], scopes => scopes = []
  | .initializer _ :: _, _ | _ :: _, [] => False
  | scope :: _, names :: _ =>
    ∀ name, names.find? name = if name ∈ scope.declared then some true else none

namespace Fits

variable {around outer : List Enclosure} {e e' : Enclosure} {scopes : List (Bindings Bool)}

/-- A new scope is empty. -/
theorem enter (he : ∀ name, e ≠ .initializer name) (hdeclared : e.declared = []) :
    Fits (e :: outer) (∅ :: scopes) := by
  cases e with
  | initializer name => exact absurd rfl (he name)
  | _ => intro name; simp [hdeclared]

theorem ne_nil (h : Fits (e :: outer) scopes) : ∃ names others, scopes = names :: others := by
  cases scopes with
  | nil => cases e <;> exact h.elim
  | cons names others => exact ⟨names,others,rfl⟩

theorem find? {names : Bindings Bool} {others : List (Bindings Bool)}
    (h : Fits (e :: outer) (names :: others)) (name : String) :
    names.find? name = if name ∈ e.declared then some true else none := by
  cases e with
  | initializer name => exact h.elim
  | _ => exact h name

theorem of_find? {names : Bindings Bool} {others : List (Bindings Bool)}
    (he : ∀ name, e ≠ .initializer name)
    (h : ∀ name, names.find? name = if name ∈ e.declared then some true else none) :
    Fits (e :: outer) (names :: others) := by
  cases e with
  | initializer name => exact absurd rfl (he name)
  | _ => exact h

/-- A name is declared and defined. -/
theorem add {name : String} (h : Fits (e :: outer) scopes) (he : ∀ other, e' ≠ .initializer other)
    (hdeclared : ∀ other, other ∈ e'.declared ↔ other = name ∨ other ∈ e.declared) :
    Fits (e' :: outer) (Scoping.marked name true scopes) := by
  obtain ⟨names,others,rfl⟩ := h.ne_nil
  refine of_find? he fun other => ?_
  rw [Bindings.find?_insert,h.find? other]
  by_cases hother : other = name <;> simp [hdeclared,hother]

end Fits

/-! ### What a pass reports -/

namespace Scoping

/-- The errors so far, newest first. -/
def errors (s : Scoping) : List Error := s.findings.filterMap Finding.fault?

/-- Between two states of a pass the violations at these points are found, and no other. -/
def Reports (s s' : Scoping) (ps : List Point) : Prop :=
  s'.errors = (ps.filterMap Point.violation?).reverse ++ s.errors

/-- A variable occurrence is at fault if and only if the rules say so. -/
def Reads (around : List Enclosure) (s : Scoping) : Prop :=
  ∀ name : Token, (Act.read name).fault? around =
    if s.inOwnInitializer name.lexeme then some (.ownInitializer,name) else none

variable {around : List Enclosure} {s s' s'' : Scoping} {a b : List Point}

@[simp] theorem errors_refer (s : Scoping) (id : ExprId) (name : Token) :
    (s.refer id name).errors = s.errors := rfl

@[simp] theorem errors_enter (s : Scoping) : s.enter.errors = s.errors := rfl

@[simp] theorem errors_leave (s : Scoping) : s.leave.errors = s.errors := rfl

@[simp] theorem errors_classDone (s : Scoping) (name : String) :
    (s.find (.classDone name)).errors = s.errors := rfl

@[simp] theorem errors_fail (s : Scoping) (fault : StaticFault) (t : Token) :
    (s.fail fault t).errors = .static fault t :: s.errors := rfl

@[simp] theorem errors_mark (s : Scoping) (name : String) (defined : Bool) :
    (s.mark name defined).errors = s.errors := by
  simp [errors]

@[simp] theorem errors_define (s : Scoping) (name : Token) : (s.define name).errors = s.errors :=
  errors_mark s name.lexeme true

namespace Reports

theorem of_errors (h : s'.errors = s.errors) : Reports s s' [] := h

theorem trans (h : Reports s s' a) (h' : Reports s' s'' b) : Reports s s'' (a ++ b) := by
  rw [Reports,h',h,List.filterMap_append,List.reverse_append,List.append_assoc]

theorem cons {p : Point} (h : Reports s s' [p]) (h' : Reports s' s'' b) : Reports s s'' (p :: b) :=
  h.trans h'

/-- What is done before or after may find anything but faults. -/
theorem between {t t' : Scoping} (h : Reports s s' a) (hs : s.errors = t.errors)
    (hs' : t'.errors = s'.errors) : Reports t t' a := by
  rw [Reports,hs',h,hs]

/-- One point is passed over, with or without a fault. -/
theorem single {act : Act} (h : s'.errors =
    ((act.fault? around).map fun (fault,found) => Error.static fault found).toList ++ s.errors) :
    Reports s s' [⟨around,act⟩] := by
  rw [Reports,h]
  cases hfault : act.fault? around <;> simp [Point.violation?,hfault]

end Reports

/-! ### Expressions -/

theorem Reads.of_scopes (h : Reads around s) (hs : s'.scopes = s.scopes) : Reads around s' := by
  obtain ⟨_,_⟩ := s
  obtain ⟨_,_⟩ := s'
  obtain rfl := hs
  exact h

theorem read_reports (h : Reads around s) (id : ExprId) (name : Token) (a : Surroundings) :
    Reports s (expr a (.variable id name) s) [⟨around,.read name⟩] := by
  refine .single ?_
  rw [h name,expr]
  split <;> simp

mutual

theorem expr_reports : ∀ (e : Expr) {s : Scoping}, Reads around s →
    Reports s (expr (surroundings around) e s) (e.points around)
  | .literal _,_,_ => .of_errors rfl
  | .grouping inner,_,h => expr_reports inner h
  | .unary _ right,_,h => expr_reports right h
  | .binary left _ right,_,h | .logical left _ right,_,h =>
    (expr_reports left h).trans (expr_reports right (h.of_scopes (expr_scopes left _)))
  | .ternary condition ifTrue ifFalse,s,h => by
    have htrue : Reads around (expr (surroundings around) condition s) := h.of_scopes (expr_scopes condition s)
    have hfalse : Reads around (expr (surroundings around) ifTrue (expr (surroundings around) condition s)) :=
      htrue.of_scopes (expr_scopes ifTrue _)
    exact (expr_reports condition h).trans
      ((expr_reports ifTrue htrue).trans (expr_reports ifFalse hfalse))
  | .variable id name,_,h => read_reports h id name _
  | .assign _ _ value,_,h => (expr_reports value h).between rfl rfl
  | .call callee _ arguments,_,h =>
    (expr_reports callee h).trans (exprs_reports arguments (h.of_scopes (expr_scopes callee _)))
  | .get object _,_,h => expr_reports object h
  | .set object _ value,_,h =>
    (expr_reports value h).trans (expr_reports object (h.of_scopes (expr_scopes value _)))
  | .this id keyword,_,_ => by
    refine .single ?_
    simp only [expr,surroundings,classContext,Act.fault?]
    cases innermostClass? around with
    | none => rfl
    | some superclass => cases superclass <;> rfl
  | .super id keyword _,_,_ => by
    refine .single ?_
    simp only [expr,surroundings,classContext,Act.fault?]
    cases innermostClass? around with
    | none => rfl
    | some superclass => cases superclass <;> rfl

theorem exprs_reports : ∀ (es : List Expr) {s : Scoping}, Reads around s →
    Reports s (exprs (surroundings around) es s) (Expr.listPoints around es)
  | [],_,_ => .of_errors rfl
  | e :: es,_,h => (expr_reports e h).trans (exprs_reports es (h.of_scopes (expr_scopes e _)))

end

theorem optional_reports (e : Option Expr) (h : Reads around s) :
    Reports s (optional (surroundings around) e s) (Expr.optionPoints around e) := by
  cases e with
  | none => exact .of_errors rfl
  | some e => exact expr_reports e h

end Scoping

/-! ### Declarations -/

namespace Fits

variable {around : List Enclosure} {s : Scoping}

theorem read_fault? {scopes : List (Bindings Bool)} (h : Fits around scopes) (name : Token) :
    (Act.read name).fault? around = none := by
  cases around with
  | nil => rfl
  | cons e outer =>
    cases e with
    | initializer other => exact h.elim
    | _ => rfl

/-- Between the statements of a scope no variable is being given its initial value. -/
theorem inOwnInitializer (h : Fits around s.scopes) (name : String) : s.inOwnInitializer name = false := by
  obtain ⟨scopes,found⟩ := s
  cases around with
  | nil =>
    obtain rfl : scopes = [] := h
    rfl
  | cons e outer =>
    obtain ⟨names,others,rfl⟩ := h.ne_nil
    have hfind := h.find? name
    simp only [Scoping.inOwnInitializer,hfind]
    split <;> rfl

theorem reads (h : Fits around s.scopes) : s.Reads around := by
  intro name
  rw [h.read_fault?,h.inOwnInitializer]
  rfl

/-- Once a name is defined, it may be read. -/
theorem define_reads (h : Fits around s.scopes) (name : Token) :
    ((s.declare name).define name).Reads around := by
  intro other
  have hdefined : ((s.declare name).define name).inOwnInitializer other.lexeme = false := by
    obtain ⟨scopes,found⟩ := s
    cases around with
    | nil =>
      obtain rfl : scopes = [] := h
      rfl
    | cons e outer =>
      obtain ⟨names,others,rfl⟩ := h.ne_nil
      have hold := h.inOwnInitializer other.lexeme
      have hscopes := Scoping.declare_define_scopes ⟨names :: others,found⟩ name
      simp only [Scoping.inOwnInitializer,hscopes,Scoping.marked,Bindings.find?_insert] at hold ⊢
      split
      · rfl
      · exact hold
  rw [h.read_fault?,hdefined]
  rfl

/-- A local variable is not to be read in its own initializer. -/
theorem reads_initializer (h : Fits around s.scopes) (name : Token) :
    (s.declare name).Reads (.initializer name :: around) := by
  intro other
  have hscopes := Scoping.declare_scopes s name
  cases around with
  | nil =>
    rw [show s.scopes = [] from h] at hscopes
    simp only [Scoping.inOwnInitializer,hscopes]
    rfl
  | cons e outer =>
    obtain ⟨names,others,hcons⟩ := h.ne_nil
    have hdeclared : (s.declare name).scopes = names.insert name.lexeme false :: others := by
      rw [hscopes,hcons]
      rfl
    rw [hcons] at h
    simp only [Act.fault?,Scoping.inOwnInitializer,hdeclared,Bindings.find?_insert,h.find?]
    by_cases hother : other.lexeme = name.lexeme
    · simp [hother]
    · by_cases hmem : other.lexeme ∈ e.declared <;> simp [hother,hmem]

/-- A name must be new in a local scope. -/
theorem declare_reports (h : Fits around s.scopes) (name : Token) :
    s.Reports (s.declare name) [⟨around,.declare name⟩] := by
  refine .single ?_
  obtain ⟨scopes,found⟩ := s
  cases around with
  | nil =>
    obtain rfl : scopes = [] := h
    rfl
  | cons e outer =>
    obtain ⟨names,others,rfl⟩ := h.ne_nil
    have hcontains : names.contains name.lexeme = decide (name.lexeme ∈ e.declared) := by
      rw [Bindings.contains,h.find?]
      split <;> simp_all
    simp only [Scoping.declare,hcontains,decide_eq_true_eq,Act.fault?]
    split <;> simp

theorem declare_define_reports (h : Fits around s.scopes) (name : Token) :
    s.Reports ((s.declare name).define name) [⟨around,.declare name⟩] :=
  (h.declare_reports name).between rfl (by simp)

end Fits

/-! ### Statements -/

/-- The statements in front of a point are those of one scope, and do not change what is around it. -/
structure Encloses (inside : List Stmt → List Enclosure) (a : Surroundings) : Prop where
  surroundings : ∀ before, surroundings (inside before) = a
  next : ∀ before b scopes, Fits (inside before) scopes →
    Fits (inside (before ++ [b])) (Scoping.markedIf b.declared? scopes)

namespace Encloses

variable {around : List Enclosure}

theorem top : Encloses (fun _ => []) ⟨.none,.none⟩ where
  surroundings _ := rfl
  next before b scopes h := by
    obtain rfl : scopes = [] := h
    cases b.declared? <;> rfl

/-- A scope whose names are the given ones and those that its statements declare. -/
theorem of_declared (scope : List Stmt → Enclosure) (names : List String) {a : Surroundings}
    (ha : ∀ before, Lox.surroundings (scope before :: around) = a)
    (hscope : ∀ before name, scope before ≠ .initializer name)
    (hdeclared : ∀ before, (scope before).declared = names ++ before.filterMap Stmt.declared?) :
    Encloses (fun before => scope before :: around) a where
  surroundings := ha
  next before b scopes h := by
    cases hb : b.declared? with
    | none =>
      obtain ⟨names,others,rfl⟩ := h.ne_nil
      refine .of_find? (hscope _) fun name => ?_
      rw [h.find?,hdeclared,hdeclared]
      simp [hb]
    | some name =>
      refine h.add (hscope _) fun other => ?_
      rw [hdeclared,hdeclared]
      simp [hb]
      grind

theorem block : Encloses (fun before => .block before :: around) (Lox.surroundings around) :=
  of_declared .block [] (fun _ => rfl) (by simp) (fun _ => rfl)

theorem function (parameters : List Token) : Encloses (fun before => .function parameters before :: around)
    { Lox.surroundings around with inFunction := .function } :=
  of_declared (.function parameters) _ (fun _ => rfl) (by simp) (fun _ => rfl)

theorem method (name : Token) (parameters : List Token) :
    Encloses (fun before => .method name parameters before :: around)
      { Lox.surroundings around with
        inFunction := if name.lexeme = "init" then .initializer else .method } :=
  of_declared (.method name parameters) _ (fun _ => rfl) (by simp) (fun _ => rfl)

end Encloses

/-- The scope of a function holds the parameters in front of a point and, in the body, all of them and the
statements in front of it. -/
structure EnclosesBody (inside : List Token → List Stmt → List Enclosure) (a : Surroundings)
    (context : FunctionContext) : Prop where
  body : ∀ parameters, Encloses (inside parameters) { a with inFunction := context }
  first : ∀ scopes, Fits (inside [] []) (∅ :: scopes)
  next : ∀ parameters p scopes, Fits (inside parameters []) scopes →
    Fits (inside (parameters ++ [p]) []) (Scoping.marked p.lexeme true scopes)

namespace EnclosesBody

variable {around : List Enclosure}

theorem function : EnclosesBody (fun parameters before => .function parameters before :: around)
    (surroundings around) .function where
  body := .function
  first scopes := .enter (by simp) rfl
  next parameters p scopes h := h.add (by simp) fun other => by
    simp [Enclosure.declared,or_comm]

theorem method (name : Token) :
    EnclosesBody (fun parameters before => .method name parameters before :: around)
      (surroundings around) (if name.lexeme = "init" then .initializer else .method) where
  body := .method name
  first scopes := .enter (by simp) rfl
  next parameters p scopes h := h.add (by simp) fun other => by
    simp [Enclosure.declared,or_comm]

end EnclosesBody

namespace Scoping

variable {around : List Enclosure}

theorem return_reports {keyword : Token} {value : Option Expr} {s : Scoping}
    (h : Fits around s.scopes) : Reports s (stmt (surroundings around) (.return keyword value) s)
      (Stmt.points around (.return keyword value)) := by
  -- A return in no function is not in an initializer, so at most one of the two rules is broken.
  have hkeyword (value : Option Expr) : Reports s
      (let s := if functionContext around = .none then s.fail .returnOutsideFunction keyword else s
        if value.isSome ∧ functionContext around = .initializer then s.fail .returnFromInitializer keyword
        else s) [⟨around,.return keyword value⟩] := by
    refine .single ?_
    cases hfunction : innermostFunction? around with
    | none => simp [functionContext,Act.fault?,hfunction]
    | some e =>
      cases e with
      | method name parameters before =>
        by_cases hname : name.lexeme = "init" <;> cases value <;>
          simp [functionContext,Act.fault?,hfunction,hname]
      | _ => simp [functionContext,Act.fault?,hfunction]
  cases value with
  | none =>
    have hnone := hkeyword none
    simp only [Option.isSome_none,Bool.false_eq_true,false_and,if_false] at hnone
    exact hnone
  | some e =>
    have hsome := hkeyword (some e)
    simp only [Option.isSome_some,true_and] at hsome
    refine hsome.cons (expr_reports e (h.reads.of_scopes ?_))
    split <;> split <;> simp

theorem checkSuperclass_reports (around : List Enclosure) {s : Scoping} (name parent : Token) (id : ExprId) :
    Reports s (checkSuperclass name (.variable id parent) s) [⟨around,.inherit name parent⟩] := by
  refine .single ?_
  simp only [checkSuperclass,Act.fault?]
  split <;> simp

theorem parameters_reports (inside : List Token → List Enclosure)
    (hinside : ∀ before p scopes, Fits (inside before) scopes →
      Fits (inside (before ++ [p])) (marked p.lexeme true scopes)) (parameters before : List Token)
    {s : Scoping} (h : Fits (inside before) s.scopes) :
    Reports s (parameters.foldl (fun s p => (s.declare p).define p) s)
        (parameterPoints inside before parameters) ∧
      Fits (inside (before ++ parameters))
        (parameters.foldl (fun s p => (s.declare p).define p) s).scopes := by
  induction parameters generalizing before s with
  | nil => exact ⟨.of_errors rfl,by simpa using h⟩
  | cons p parameters ih =>
    have hnext : Fits (inside (before ++ [p])) ((s.declare p).define p).scopes := by
      rw [declare_define_scopes]
      exact hinside before p s.scopes h
    obtain ⟨hreports,hfits⟩ := ih (before ++ [p]) hnext
    exact ⟨(h.declare_define_reports p).cons hreports,by simpa using hfits⟩

mutual

theorem stmt_reports {around : List Enclosure} : ∀ (b : Stmt) {s : Scoping}, b.Proper →
    Fits around s.scopes → Reports s (stmt (surroundings around) b s) (b.points around)
  | .expression e,_,_,h | .print e,_,_,h => expr_reports e h.reads
  | .var name initializer,_,_,h => by
    have hvalue : Reports _ _ (Expr.optionPoints (.initializer name :: around) initializer) :=
      optional_reports initializer (h.reads_initializer name)
    exact ((h.declare_reports name).cons hvalue).between rfl (by simp [stmt])
  | .block body,s,hproper,_ => by
    have henclosed : Encloses (fun before => .block before :: around) (surroundings around) := .block
    have hbody := stmts_reports body [] henclosed hproper (s := s.enter) (.enter (by simp) rfl)
    exact hbody.between rfl rfl
  | .branch condition thenBranch elseBranch,s,⟨_,⟨hthen,hdeclared⟩,helse⟩,h => by
    have hcondition : (expr (surroundings around) condition s).scopes = s.scopes := expr_scopes condition s
    have hbehind : (stmt (surroundings around) thenBranch
        (expr (surroundings around) condition s)).scopes = s.scopes := by
      rw [stmt_scopes thenBranch _ hthen,hdeclared]
      exact hcondition
    exact (expr_reports condition h.reads).trans
      ((stmt_reports thenBranch hthen (hcondition ▸ h)).trans
        (stmt?_reports elseBranch helse (hbehind ▸ h)))
  | .loop condition body,s,⟨_,hbody,_⟩,h => by
    have hcondition : (expr (surroundings around) condition s).scopes = s.scopes := expr_scopes condition s
    exact (expr_reports condition h.reads).trans (stmt_reports body hbody (hcondition ▸ h))
  | .function d,s,hproper,h =>
    (h.declare_define_reports d.name).cons (function_reports d .function hproper)
  | .return _ _,_,_,h => return_reports h
  | .class name superclass methods,s,⟨_,hvariable,hmethods⟩,h => by
    have hname := h.declare_define_reports name
    cases superclass with
    | none =>
      have hbody : Reports (((s.declare name).define name).enter.mark "this" true) _
          (Stmt.methodPoints (.class none :: around) methods) := functions_reports methods hmethods
      exact (hname.cons (hbody.between (by simp) rfl)).between rfl (by simp [stmt,surroundings_class])
    | some parent =>
      obtain ⟨id,parent,rfl⟩ := hvariable parent rfl
      have hreads : Reads around (checkSuperclass name (.variable id parent)
          ((s.declare name).define name)) :=
        (h.define_reads name).of_scopes (checkSuperclass_scopes _ _ _)
      have hparent := (checkSuperclass_reports around (s := (s.declare name).define name) name parent id).cons
        (read_reports hreads id parent { surroundings around with inClass := .subclass })
      have hbody : Reports (((expr { surroundings around with inClass := .subclass } (.variable id parent)
          (checkSuperclass name (.variable id parent) ((s.declare name).define name))).enter.mark
            "super" true).enter.mark "this" true) _
          (Stmt.methodPoints (.class (some (.variable id parent)) :: around) methods) :=
        functions_reports methods hmethods
      exact (hname.cons (hparent.trans (hbody.between (by simp) rfl))).between rfl
        (by simp [stmt,surroundings_subclass])

theorem stmt?_reports {around : List Enclosure} : ∀ (b : Option Stmt) {s : Scoping},
    Stmt.OptionProper b → Fits around s.scopes →
    Reports s (stmt? (surroundings around) b s) (Stmt.optionPoints around b)
  | none,_,_,_ => .of_errors rfl
  | some b,_,hproper,h => stmt_reports b hproper.1 h

theorem stmts_reports {inside : List Stmt → List Enclosure} {a : Surroundings} :
    ∀ (bs : List Stmt) (before : List Stmt) {s : Scoping}, Encloses inside a → Stmt.ListProper bs →
    Fits (inside before) s.scopes → Reports s (stmts a bs s) (Stmt.listPoints inside before bs)
  | [],_,_,_,_,_ => .of_errors rfl
  | b :: bs,before,s,hinside,hproper,h => by
    have hfirst := stmt_reports b hproper.1 h
    rw [hinside.surroundings] at hfirst
    refine hfirst.trans (stmts_reports bs (before ++ [b]) hinside hproper.2 ?_)
    rw [stmt_scopes b s hproper.1]
    exact hinside.next before b s.scopes h

theorem function_reports {inside : List Token → List Stmt → List Enclosure} {a : Surroundings}
    {context : FunctionContext} : ∀ (d : FunctionDecl) {s : Scoping}, EnclosesBody inside a context →
    Stmt.FunctionProper d → Reports s (function a context d s) (Stmt.functionPoints inside d)
  | ⟨_,parameters,body⟩,s,hinside,⟨_,_,hbody⟩ => by
    obtain ⟨hparameters,hfits⟩ := parameters_reports (inside · []) hinside.next parameters []
      (s := s.enter) (hinside.first s.scopes)
    exact (hparameters.trans (stmts_reports body [] (hinside.body parameters) hbody hfits)).between rfl rfl

theorem functions_reports {around : List Enclosure} : ∀ (ds : List FunctionDecl) {s : Scoping},
    Stmt.ListFunctionProper ds →
    Reports s (functions (surroundings around) ds s) (Stmt.methodPoints around ds)
  | [],_,_ => .of_errors rfl
  | d :: ds,_,hproper =>
    (function_reports d (.method d.name) hproper.1).trans (functions_reports ds hproper.2)

end

end Scoping

/-! ### Programs -/

theorem resolve_errors {program : List Stmt} (h : Stmt.ListProper program) :
    (resolve program).errors = (points program).filterMap Point.violation? := by
  have hreports := Scoping.stmts_reports program [] .top (s := ⟨[],[]⟩) h rfl
  rw [Scoping.Reports,Scoping.errors] at hreports
  rw [Resolution.errors,resolve,List.filterMap_reverse]
  exact (congrArg List.reverse hreports).trans (by simp [Scoping.errors,points])

end Lox

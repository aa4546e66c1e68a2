import Lox.Proofs.Renaming.Tree
import Lox.Proofs.Scoping.Diagnosis

/-! Programs that break no rule of scoping, with a new name for one of their variables. -/
namespace Lox

variable {ρ : Renaming} {flags : List Bool} {bound : ExprId → Option Nat} {heof : (Token.eof 1).lexeme ≠ ρ.new}
  {name : String} {k : Nat}

namespace Stmt

/-! ### Names that are declared once -/

/-- A scope with some names in it besides those that its statements declare. -/
def Declares (scope : List Stmt → Enclosure) (names : List String) : Prop :=
  ∀ before, (scope before).declared = names ++ before.filterMap declared?

/-- No rule is broken at any of these points. -/
def Lawful (ps : List Point) : Prop := ∀ p ∈ ps, p.violation? = none

variable {scope : List Stmt → Enclosure} {names : List String} {around : List Enclosure} {before ss : List Stmt}
  {s : Stmt}

theorem declare_point (around : List Enclosure) (h : s.declared? = some name) :
    ∃ t : Token, t.lexeme = name ∧ ⟨around,.declare t⟩ ∈ s.points around := by
  cases s with
  | var t e => exact ⟨t,Option.some.inj h,List.mem_cons_self⟩
  | function d => exact ⟨d.name,Option.some.inj h,List.mem_cons_self⟩
  | «class» t e ds => exact ⟨t,Option.some.inj h,List.mem_cons_self⟩
  | _ => simp [declared?] at h

theorem Lawful.cons {inside : List Stmt → List Enclosure} (h : Lawful (listPoints inside before (s :: ss))) :
    Lawful (s.points (inside before)) ∧ Lawful (listPoints inside (before ++ [s]) ss) :=
  List.forall_mem_append.mp h

/-- A name that has been declared is not declared again. -/
theorem Lawful.not_declared (hscope : Declares scope names)
    (h : Lawful (listPoints (scope · :: around) before ss))
    (hname : name ∈ names ++ before.filterMap declared?) (hs : s ∈ ss) : s.declared? ≠ some name := by
  induction ss generalizing before with
  | nil => simp at hs
  | cons b ss ih =>
    obtain ⟨hb,hss⟩ := h.cons
    rcases List.mem_cons.mp hs with rfl | hs
    · intro hdeclared
      obtain ⟨t,rfl,hpoint⟩ := declare_point (scope before :: around) hdeclared
      have hviolation := hb _ hpoint
      simp [Point.violation?,Act.fault?,hscope before,hname] at hviolation
    · refine ih hss ?_ hs
      rw [List.filterMap_append,← List.append_assoc]
      exact List.mem_append_left _ hname

/-- The declaration of a variable is the only one of its name. -/
theorem Lawful.yields (hscope : Declares scope names) (h : Lawful (listPoints (scope · :: around) before ss))
    {t : Token} (ht : t ∈ ss.filterMap varName?) (hs : s ∈ ss) : s.Yields t.lexeme := by
  induction ss generalizing before with
  | nil => simp at hs
  | cons b ss ih =>
    obtain ⟨-,hss⟩ := h.cons
    have hlater (name : String) (hb : b.declared? = some name) (c : Stmt) (hc : c ∈ ss) :
        c.declared? ≠ some name :=
      hss.not_declared hscope (by simp [hb]) hc
    have hdeclared {c : Stmt} (hc : c.varName? = some t) : c.declared? = some t.lexeme := by
      cases c <;> simp_all [varName?,declared?]
    obtain ⟨c,hc,hct⟩ := List.mem_filterMap.mp ht
    rcases List.mem_cons.mp hc with rfl | htail
    · rcases List.mem_cons.mp hs with rfl | hs
      · exact fun _ => by simp [hct]
      · exact fun hd => absurd hd (hlater _ (hdeclared hct) s hs)
    · rcases List.mem_cons.mp hs with rfl | hs
      · exact fun hd => absurd (hdeclared hct) (hlater _ hd c htail)
      · exact ih hss (List.mem_filterMap.mpr ⟨c,htail,hct⟩) hs

theorem Lawful.statement {inside : List Stmt → List Enclosure} (h : Lawful (listPoints inside before ss))
    (hs : s ∈ ss) : ∃ around, Lawful (s.points around) := by
  induction ss generalizing before with
  | nil => simp at hs
  | cons b ss ih =>
    obtain ⟨hb,hss⟩ := h.cons
    rcases List.mem_cons.mp hs with rfl | hs
    · exact ⟨_,hb⟩
    · exact ih hss hs

/-! ### Statements that may be renamed -/

/-- What is needed of a statement in order that one of its variables may be renamed. -/
structure Admissible (ρ : Renaming) (bound : ExprId → Option Nat) (heof : (Token.eof 1).lexeme ≠ ρ.new)
    (s : Stmt) : Prop where
  alike : s.Alike (ρ.apart bound heof) s
  proper : s.Proper
  lawful : ∃ around, Lawful (s.points around)

/-- The statements of one scope, with the names in it besides those that they declare. -/
structure ScopeAdmissible (ρ : Renaming) (bound : ExprId → Option Nat) (heof : (Token.eof 1).lexeme ≠ ρ.new)
    (names : List String) (ss : List Stmt) : Prop where
  alike : ListAlike (ρ.apart bound heof) ss ss
  proper : ListProper ss
  lawful : ∃ scope around, Declares scope names ∧ Lawful (listPoints (scope · :: around) [] ss)

structure FunctionAdmissible (ρ : Renaming) (bound : ExprId → Option Nat) (heof : (Token.eof 1).lexeme ≠ ρ.new)
    (d : FunctionDecl) : Prop where
  alike : FunctionAlike (ρ.apart bound heof) d d
  proper : FunctionProper d
  scope : ScopeAdmissible ρ bound heof (d.parameters.map Token.lexeme) d.body

theorem ListAlike.mem {l : Likeness} (h : ListAlike l ss ss) (hs : s ∈ ss) : s.Alike l s := by
  induction ss with
  | nil => simp at hs
  | cons b ss ih =>
    cases h with
    | cons hb hss =>
      rcases List.mem_cons.mp hs with rfl | hs
      · exact hb
      · exact ih hss hs

theorem ListProper.mem (h : ListProper ss) (hs : s ∈ ss) : s.Proper := by
  induction ss with
  | nil => simp at hs
  | cons b ss ih =>
    rcases List.mem_cons.mp hs with rfl | hs
    · exact h.1
    · exact ih h.2 hs

theorem ScopeAdmissible.mem (h : ScopeAdmissible ρ bound heof names ss) (hs : s ∈ ss) :
    s.Admissible ρ bound heof := by
  obtain ⟨scope,around,-,hlawful⟩ := h.lawful
  exact ⟨h.alike.mem hs,h.proper.mem hs,hlawful.statement hs⟩

theorem ScopeAdmissible.yields (h : ScopeAdmissible ρ bound heof names ss) {t : Token}
    (ht : t.lexeme ∈ names ∨ t ∈ ss.filterMap varName?) (hs : s ∈ ss) : s.Yields t.lexeme := by
  obtain ⟨scope,around,hscope,hlawful⟩ := h.lawful
  rcases ht with ht | ht
  · exact fun hd => absurd hd (hlawful.not_declared hscope (List.mem_append_left _ ht) hs)
  · exact hlawful.yields hscope ht hs

/-- A variable has a name that can be declared, and not the new one. -/
theorem ScopeAdmissible.variable (h : ScopeAdmissible ρ bound heof names ss) {t : Token}
    (ht : t ∈ ss.filterMap varName?) : t.IsName ∧ t.lexeme ≠ ρ.new := by
  obtain ⟨s,hs,hst⟩ := List.mem_filterMap.mp ht
  obtain ⟨halike,hproper,-⟩ := h.mem hs
  cases s with
  | var t' e =>
    obtain rfl := Option.some.inj hst
    cases halike with
    | var htoken _ => exact ⟨hproper.1,htoken.2⟩
  | _ => simp [varName?] at hst

theorem FunctionAdmissible.variable {d : FunctionDecl} (h : FunctionAdmissible ρ bound heof d) {t : Token}
    (ht : t ∈ functionVariables d) : t.IsName ∧ t.lexeme ≠ ρ.new := by
  rcases List.mem_append.mp ht with ht | ht
  · exact ⟨((functionProper_iff d).mp h.proper).2.1 t ht,(List.forall₂_same.mp h.alike.parameters t ht).2⟩
  · exact h.scope.variable ht

namespace Admissible

theorem block (h : Admissible ρ bound heof (.block ss)) : ScopeAdmissible ρ bound heof [] ss := by
  obtain ⟨halike,hproper,around,hlawful⟩ := h
  cases halike with
  | block halike => exact ⟨halike,hproper,.block,around,fun _ => rfl,hlawful⟩

theorem branch {e : Expr} {a : Stmt} {b : Option Stmt} (h : Admissible ρ bound heof (.branch e a b)) :
    Admissible ρ bound heof a ∧ ∀ s, b = some s → Admissible ρ bound heof s := by
  obtain ⟨halike,hproper,around,hlawful⟩ := h
  obtain ⟨-,hbranches⟩ := List.forall_mem_append.mp hlawful
  obtain ⟨hthen,helse⟩ := List.forall_mem_append.mp hbranches
  cases halike with
  | branch _ ha hb =>
    refine ⟨⟨ha,hproper.2.1.1,around,hthen⟩,?_⟩
    rintro s rfl
    cases hb with
    | some hb => exact ⟨hb,hproper.2.2.1,around,helse⟩

theorem loop {e : Expr} (h : Admissible ρ bound heof (.loop e s)) : Admissible ρ bound heof s := by
  obtain ⟨halike,hproper,around,hlawful⟩ := h
  cases halike with
  | loop _ halike => exact ⟨halike,hproper.2.1,around,(List.forall_mem_append.mp hlawful).2⟩

/-- The scope of a function has its parameters and what its body declares. -/
theorem scope_of_points {d : FunctionDecl} {inside : List Token → List Stmt → Enclosure}
    (halike : FunctionAlike (ρ.apart bound heof) d d) (hproper : FunctionProper d)
    (hinside : Declares (inside d.parameters) (d.parameters.map Token.lexeme))
    (h : Lawful (functionPoints (fun parameters before => inside parameters before :: around) d)) :
    FunctionAdmissible ρ bound heof d := by
  obtain ⟨name,parameters,body⟩ := d
  exact ⟨halike,hproper,halike.body,hproper.2.2,inside parameters,around,hinside,
    (List.forall_mem_append.mp h).2⟩

theorem function {d : FunctionDecl} (h : Admissible ρ bound heof (.function d)) :
    FunctionAdmissible ρ bound heof d := by
  obtain ⟨halike,hproper,around,hlawful⟩ := h
  cases halike with
  | function halike => exact scope_of_points halike hproper (fun _ => rfl) (List.forall_mem_cons.mp hlawful).2

theorem methods {ds : List FunctionDecl} (halike : FunctionsAlike (ρ.apart bound heof) ds ds)
    (hproper : ListFunctionProper ds) (h : Lawful (methodPoints around ds)) :
    ∀ d ∈ ds, FunctionAdmissible ρ bound heof d := by
  induction ds with
  | nil => simp
  | cons d ds ih =>
    cases halike with
    | cons hd hds =>
      obtain ⟨hfirst,hothers⟩ := List.forall_mem_append.mp h
      exact List.forall_mem_cons.mpr
        ⟨scope_of_points hd hproper.1 (fun _ => rfl) hfirst,ih hds hproper.2 hothers⟩

theorem «class» {t : Token} {e : Option Expr} {ds : List FunctionDecl}
    (h : Admissible ρ bound heof (.class t e ds)) : ∀ d ∈ ds, FunctionAdmissible ρ bound heof d := by
  obtain ⟨halike,hproper,around,hlawful⟩ := h
  obtain ⟨-,hrest⟩ := List.forall_mem_cons.mp hlawful
  obtain ⟨-,hrest⟩ := List.forall_mem_append.mp hrest
  cases halike with
  | «class» _ _ halike => exact methods halike hproper.2.2 (List.forall_mem_append.mp hrest).2

end Admissible

/-! ### Renaming at the end of a path -/

variable {f : Stmt → Stmt} {g : FunctionDecl → FunctionDecl} {outer : List Bool}

theorem ListRenamed.modify (h : true ∉ flags) (hf : ∀ s, ss[k]? = some s → s.Renamed ρ flags (f s)) :
    ListRenamed ρ flags ss (ss.modify k f) := by
  induction ss generalizing k with
  | nil =>
    rw [List.modify_nil]
    exact .nil
  | cons b ss ih =>
    cases k with
    | zero => exact .cons (hf b rfl) (.refl h ss)
    | succ k => exact .cons (.refl h b) (ih hf)

theorem FunctionsRenamed.modify {ds : List FunctionDecl} (h : true ∉ flags)
    (hg : ∀ d, ds[k]? = some d → FunctionRenamed ρ flags d (g d)) :
    FunctionsRenamed ρ flags ds (ds.modify k g) := by
  induction ds generalizing k with
  | nil =>
    rw [List.modify_nil]
    exact .nil
  | cons d ds ih =>
    cases k with
    | zero => exact .cons (hg d rfl) (.refl h ds)
    | succ k => exact .cons (.refl h d) (ih hg)

/-- Only a statement in the body of a function changes. -/
theorem FunctionRenamed.modify {d : FunctionDecl} (h : true ∉ flags)
    (hf : ∀ s, d.body[k]? = some s → s.Renamed ρ (false :: flags) (f s)) :
    FunctionRenamed ρ flags d { d with body := d.body.modify k f } := by
  obtain ⟨name,parameters,body⟩ := d
  have hinside := Renaming.unmarked_cons h
  exact .mk (List.forall₂_same.mpr fun p _ => .same hinside p) (.modify hinside hf)

theorem ScopeAdmissible.listRename (h : ScopeAdmissible ρ bound heof names ss) (hρ : ρ.Local outer)
    {t : Token} (ht : t.lexeme ∈ names ∨ t ∈ ss.filterMap varName?) (hold : t.lexeme = ρ.old) :
    ListRenamed (ρ.rebind bound) (true :: outer) ss (Stmt.listRename ρ 0 ss) :=
  listRename_renamed hρ 0 ss h.alike h.proper fun _ _ hs => hold ▸ h.yields ht hs

theorem FunctionAdmissible.functionRename {d : FunctionDecl} (h : FunctionAdmissible ρ bound heof d)
    (hρ : ρ.Local outer) {t : Token} (ht : t ∈ functionVariables d) (hold : t.lexeme = ρ.old) :
    FunctionRenamed (ρ.rebind bound) outer d (Stmt.functionRename ρ 0 d) := by
  have hvariable : t.lexeme ∈ d.parameters.map Token.lexeme ∨ t ∈ d.body.filterMap varName? :=
    (List.mem_append.mp ht).imp_left (List.mem_map_of_mem (f := Token.lexeme))
  exact functionRename_renamed hρ 0 d h.alike h.proper fun _ _ hs => hold ▸ h.scope.yields hvariable hs

theorem mem_elim {α β : Type} {o : Option α} {f : α → List β} {b : β} (h : b ∈ o.elim [] f) :
    ∃ a, o = some a ∧ b ∈ f a := by
  cases o with
  | none => simp at h
  | some a => exact ⟨a,rfl,h⟩

/-- The variables that a path leads to. -/
theorem Admissible.variable (path : List Nat) (s : Stmt) (h : s.Admissible ρ bound heof) {t : Token}
    (ht : t ∈ s.variablesAt path) : t.IsName ∧ t.lexeme ≠ ρ.new := by
  match path,s with
  | [],.block body => exact h.block.variable ht
  | k :: path,.block body =>
    obtain ⟨c,hc,ht⟩ := mem_elim ht
    exact Admissible.variable path c (h.block.mem (List.mem_of_getElem? hc)) ht
  | 0 :: path,.branch e a b => exact Admissible.variable path a h.branch.1 ht
  | (k + 1) :: path,.branch e a b =>
    obtain ⟨c,rfl,ht⟩ := mem_elim ht
    exact Admissible.variable path c (h.branch.2 c rfl) ht
  | k :: path,.loop e b => exact Admissible.variable path b h.loop ht
  | [],.function d => exact h.function.variable ht
  | k :: path,.function d =>
    obtain ⟨c,hc,ht⟩ := mem_elim ht
    exact Admissible.variable path c (h.function.scope.mem (List.mem_of_getElem? hc)) ht
  | [k],.class name e ds =>
    obtain ⟨d,hd,ht⟩ := mem_elim ht
    exact (h.class d (List.mem_of_getElem? hd)).variable ht
  | k :: j :: path,.class name e ds =>
    obtain ⟨c,hc,ht⟩ := mem_elim ht
    obtain ⟨d,hd,hc⟩ := Option.bind_eq_some_iff.mp hc
    have hscope := (h.class d (List.mem_of_getElem? hd)).scope
    exact Admissible.variable path c (hscope.mem (List.mem_of_getElem? hc)) ht
  | _,.expression _ | _,.print _ | _,.var _ _ | _,.return _ _ => simp [variablesAt] at ht
  | [],.branch _ _ _ | [],.loop _ _ | [],.class _ _ _ => simp [variablesAt] at ht

/-- Where a path leads to a variable of the old name, the variable gets the new name. -/
theorem renameAt_renamed (hρ : ρ.Apt) (path : List Nat) (s : Stmt) {outer : List Bool} (houter : true ∉ outer)
    (h : s.Admissible ρ bound heof) {t : Token} (ht : t ∈ s.variablesAt path) (hold : t.lexeme = ρ.old) :
    s.Renamed (ρ.rebind bound) outer (s.renameAt ρ path) := by
  have hinside := Renaming.unmarked_cons houter
  match path,s with
  | [],.block body =>
    exact .block (h.block.listRename (hρ.local houter) (.inr ht) hold)
  | k :: path,.block body =>
    refine .block (.modify hinside fun b hb => ?_)
    obtain ⟨c,hc,ht⟩ := mem_elim ht
    obtain rfl := Option.some.inj (hc.symm.trans hb)
    exact renameAt_renamed hρ path c hinside (h.block.mem (List.mem_of_getElem? hc)) ht hold
  | 0 :: path,.branch e a b =>
    exact .branch (.refl houter e) (renameAt_renamed hρ path a houter h.branch.1 ht hold) (.refl houter b)
  | (k + 1) :: path,.branch e a b =>
    obtain ⟨c,rfl,ht⟩ := mem_elim ht
    have helse := renameAt_renamed hρ path c houter (h.branch.2 c rfl) ht hold
    exact .branch (.refl houter e) (.refl houter a) (.some helse)
  | k :: path,.loop e b => exact .loop (.refl houter e) (renameAt_renamed hρ path b houter h.loop ht hold)
  | [],.function d => exact .function (.declared houter d.name) (h.function.functionRename (hρ.local houter) ht hold)
  | k :: path,.function d =>
    refine .function (.declared houter d.name) (.modify houter fun b hb => ?_)
    obtain ⟨c,hc,ht⟩ := mem_elim ht
    obtain rfl := Option.some.inj (hc.symm.trans hb)
    exact renameAt_renamed hρ path c hinside (h.function.scope.mem (List.mem_of_getElem? hc)) ht hold
  | [k],.class name e ds =>
    have hreceiver := Renaming.unmarked_cons (Renaming.unmarked_aroundReceiver houter e.isSome)
    refine .class (.declared houter name) (.refl houter e) (.modify hreceiver fun d hd => ?_)
    obtain ⟨d',hd',ht⟩ := mem_elim ht
    obtain rfl := Option.some.inj (hd'.symm.trans hd)
    exact (h.class d' (List.mem_of_getElem? hd)).functionRename (hρ.local hreceiver) ht hold
  | k :: j :: path,.class name e ds =>
    have hreceiver := Renaming.unmarked_cons (Renaming.unmarked_aroundReceiver houter e.isSome)
    refine .class (.declared houter name) (.refl houter e) (.modify hreceiver fun d hd => .modify hreceiver ?_)
    intro b hb
    obtain ⟨c,hc,ht⟩ := mem_elim ht
    rw [hd,Option.bind_some] at hc
    obtain rfl := Option.some.inj (hc.symm.trans hb)
    have hscope := (h.class d (List.mem_of_getElem? hd)).scope
    exact renameAt_renamed hρ path c (Renaming.unmarked_cons hreceiver) (hscope.mem (List.mem_of_getElem? hc)) ht hold
  | _,.expression _ | _,.print _ | _,.var _ _ | _,.return _ _ => simp [variablesAt] at ht
  | [],.branch _ _ _ | [],.loop _ _ | [],.class _ _ _ => simp [variablesAt] at ht

end Stmt
/-- Statements of a program that breaks no rule of scoping. -/
theorem admissible_of_mem {program : List Stmt} {s : Stmt} (hs : s ∈ program)
    (halike : Stmt.ListAlike (ρ.apart bound heof) program program) (hproper : Stmt.ListProper program)
    (haccepted : (resolve program).errors = []) : s.Admissible ρ bound heof := by
  have hlawful : Stmt.Lawful (points program) := by
    rw [resolve_errors hproper,List.filterMap_eq_nil_iff] at haccepted
    exact haccepted
  exact ⟨halike.mem hs,hproper.mem hs,hlawful.statement hs⟩

section

variable {program : List Stmt} {path : List Nat} {t : Token}

theorem variablesAt_name (halike : Stmt.ListAlike (ρ.apart bound heof) program program)
    (hproper : Stmt.ListProper program) (haccepted : (resolve program).errors = [])
    (ht : t ∈ variablesAt path program) : t.IsName ∧ t.lexeme ≠ ρ.new := by
  cases path with
  | nil => simp [variablesAt] at ht
  | cons k path =>
    obtain ⟨s,hs,ht⟩ := Stmt.mem_elim ht
    exact (admissible_of_mem (List.mem_of_getElem? hs) halike hproper haccepted).variable path s ht

/-- A program without errors of scoping, in which a variable gets its new name. -/
theorem renameAt_renamed (hρ : ρ.Apt) (halike : Stmt.ListAlike (ρ.apart bound heof) program program)
    (hproper : Stmt.ListProper program) (haccepted : (resolve program).errors = [])
    (ht : t ∈ variablesAt path program) (hold : t.lexeme = ρ.old) :
    Stmt.ListRenamed (ρ.rebind bound) [] program (renameAt ρ path program) := by
  cases path with
  | nil => simp [variablesAt] at ht
  | cons k path =>
    obtain ⟨s,hs,ht⟩ := Stmt.mem_elim ht
    have hadmissible := admissible_of_mem (List.mem_of_getElem? hs) halike hproper haccepted
    refine .modify (by simp) fun b hb => ?_
    obtain rfl := Option.some.inj (hs.symm.trans hb)
    exact s.renameAt_renamed hρ path (by simp) hadmissible ht hold

end

end Lox

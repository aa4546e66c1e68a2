import Lox.Proofs.Scoping.Once

/-! No receiver is passed over: the scope that scoping finds `this` in is that of the innermost method around. -/
namespace Lox

namespace Context

/-- The scopes that were made for receivers have their name. -/
def Receives (c : Context) : Prop := ∀ f ∈ c.frames, ∀ d, f.site = .receiver d → f.names.contains "this"

variable {c : Context}

theorem Receives.top : top.Receives := by
  simp [Receives,Context.top]

theorem Receives.of_frames {c' : Context} (h : c.Receives) (hframes : c'.frames = c.frames) : c'.Receives := by
  rwa [Receives,hframes]

theorem Receives.enter (h : c.Receives) {f : Frame} (hf : ∀ d, f.site = .receiver d → f.names.contains "this") :
    (c.enter f).Receives := by
  intro g hg
  rcases List.mem_cons.mp hg with rfl | hg
  · exact hf
  · exact h g hg

theorem Receives.mark (h : c.Receives) (name : String) (defined : Bool) : (c.mark name defined).Receives := by
  obtain ⟨frames,around,initializing⟩ := c
  cases frames with
  | nil => exact h
  | cons first frames =>
    intro g hg d hd
    rcases List.mem_cons.mp hg with rfl | hg
    · simp [Bindings.contains_insert,h first List.mem_cons_self d hd]
    · exact h g (List.mem_cons_of_mem _ hg) d hd

theorem Receives.initializer (h : c.Receives) (name : String) : (c.initializer name).Receives :=
  (h.mark name false).of_frames rfl

theorem Receives.define (h : c.Receives) (name : String) : (c.define name).Receives := h.mark name true

theorem Receives.defineIf (h : c.Receives) (name : Option String) : (c.defineIf name).Receives := by
  cases name with
  | none => exact h
  | some name => exact h.define name

theorem Receives.block (h : c.Receives) (body : List Stmt) : (c.enter ⟨.block body,∅⟩).Receives :=
  h.enter fun _ hd => by cases hd

theorem Receives.calling (h : c.Receives) (context : FunctionContext) (d : FunctionDecl) :
    (c.calling context d).Receives := by
  have hentered : (c.enter ⟨.call d,d.parameters.foldl
      (fun names p => names.insert p.lexeme true) ∅⟩).Receives := h.enter fun _ hd => by cases hd
  exact hentered.of_frames rfl

theorem Receives.receiving (h : c.Receives) (method : FunctionDecl) : (c.receiving method).Receives :=
  h.enter fun _ _ => by simp [Bindings.contains_insert]

theorem Receives.inClass (h : c.Receives) (name : Token) (superclass : Option Expr) (methods : List FunctionDecl) :
    (c.inClass name superclass methods).Receives := by
  cases superclass with
  | none => exact (h.define name.lexeme).of_frames rfl
  | some parent =>
    have hdefined : Receives { c.define name.lexeme with around := { c.around with inClass := .subclass } } :=
      (h.define name.lexeme).of_frames rfl
    exact hdefined.enter fun _ hd => by cases hd

/-- Further in than the scope that has `this`, there is no receiver. -/
theorem Receives.innermost (h : c.Receives) {d : Nat} (hd : Scoping.depth? c.scopes "this" = some d) {e : Nat}
    (he : e < d) (method : FunctionDecl) : c.sites[e]? ≠ some (.receiver method) := by
  intro hsite
  obtain ⟨f,hf,hmethod⟩ : ∃ f, c.frames[e]? = some f ∧ f.site = .receiver method := by
    simpa [sites] using hsite
  obtain ⟨hin,-,hbefore⟩ := List.findIdx?_eq_some_iff_getElem.mp hd
  have hlt : e < c.frames.length := (List.getElem?_eq_some_iff.mp hf).1
  have hnot := hbefore e he
  rw [List.getElem?_eq_getElem hlt] at hf
  obtain rfl := Option.some.inj hf
  simp only [scopes,List.getElem_map] at hnot
  exact hnot (h _ (List.getElem_mem hlt) method hmethod)

end Context

/-- Scoping finds the occurrence at a point where the scopes of receivers have their name. -/
def Seen (program : List Stmt) (o : ExprId × Place) : Prop :=
  ∃ c name, c.Receives ∧ c.place = o.2 ∧ Recorded program c o.1 name

variable {program : List Stmt} {c : Context} {id : ExprId}

theorem Recorded.seen {id : ExprId} {name : String} (h : Recorded program c id name) (hc : c.Receives) :
    Seen program (id,c.place) := ⟨c,name,hc,rfl,h⟩

mutual

theorem ExprIn.seen (haccepted : Accepted program) (hc : c.Receives) : ∀ {e : Expr}, ExprIn program c e →
    ∀ o ∈ e.occurrences c.place, Seen program o
  | .literal _,_ => by simp [Expr.occurrences]
  | .grouping e,h => ExprIn.seen (e := e) haccepted hc h.grouping
  | .unary _ e,h => ExprIn.seen (e := e) haccepted hc h.unary
  | .binary _ _ _,h => List.forall_mem_append.mpr ⟨h.binary.1.seen haccepted hc,h.binary.2.seen haccepted hc⟩
  | .logical _ _ _,h => List.forall_mem_append.mpr ⟨h.logical.1.seen haccepted hc,h.logical.2.seen haccepted hc⟩
  | .ternary _ _ _,h => List.forall_mem_append.mpr ⟨h.ternary.1.seen haccepted hc,
      List.forall_mem_append.mpr ⟨h.ternary.2.1.seen haccepted hc,h.ternary.2.2.seen haccepted hc⟩⟩
  | .variable _ _,h => List.forall_mem_singleton.mpr ((h.identifier haccepted).1.seen hc)
  | .assign _ _ _,h => List.forall_mem_append.mpr ⟨h.assign.1.seen haccepted hc,
      List.forall_mem_singleton.mpr (h.assign.2.2.seen hc)⟩
  | .call _ _ _,h => List.forall_mem_append.mpr ⟨h.call.1.seen haccepted hc,h.call.2.seen haccepted hc⟩
  | .get e _,h => ExprIn.seen (e := e) haccepted hc h.get
  | .set _ _ _,h => List.forall_mem_append.mpr ⟨h.set.2.seen haccepted hc,h.set.1.seen haccepted hc⟩
  | .this _ _,h => List.forall_mem_singleton.mpr ((h.this haccepted).1.seen hc)
  | .super _ _ _,h => List.forall_mem_singleton.mpr ((h.super haccepted).1.seen hc)

theorem ExprsIn.seen (haccepted : Accepted program) (hc : c.Receives) : ∀ {es : List Expr}, ExprsIn program c es →
    ∀ o ∈ Expr.listOccurrences c.place es, Seen program o
  | [],_ => by simp [Expr.listOccurrences]
  | _ :: _,h => List.forall_mem_append.mpr ⟨h.cons.1.seen haccepted hc,h.cons.2.seen haccepted hc⟩

end

theorem OptionIn.seen (haccepted : Accepted program) (hc : c.Receives) {e : Option Expr} (h : OptionIn program c e) :
    ∀ o ∈ Expr.optionOccurrences c.place e, Seen program o := by
  cases e with
  | none => simp [Expr.optionOccurrences]
  | some e => exact h.some.seen haccepted hc

mutual

theorem StmtIn.seen (haccepted : Accepted program) : ∀ {b : Stmt} {c : Context}, StmtIn program c b → c.Receives →
    c.initializing = none → ∀ o ∈ b.occurrences c.sites, Seen program o
  | .expression _,_,h,hc,hinit => by
    have hseen := (h.expression hinit).seen haccepted hc
    rwa [Context.place,hinit] at hseen
  | .print _,_,h,hc,hinit => by
    have hseen := (h.print hinit).seen haccepted hc
    rwa [Context.place,hinit] at hseen
  | .var name _,_,h,hc,_ => by
    have hseen := h.var.seen haccepted (hc.initializer name.lexeme)
    rwa [Context.initializer_place] at hseen
  | .block body,_,h,hc,_ => StmtsIn.seen haccepted h.block (hc.block body) rfl
  | .branch _ _ elseBranch,_,h,hc,hinit => by
    obtain ⟨hcondition,hthen,helse⟩ := h.branch hinit
    have hseen := hcondition.seen haccepted hc
    rw [Context.place,hinit] at hseen
    refine List.forall_mem_append.mpr ⟨hseen,List.forall_mem_append.mpr ⟨StmtIn.seen haccepted hthen hc hinit,?_⟩⟩
    cases elseBranch with
    | none => simp [Stmt.optionOccurrences]
    | some b => exact StmtIn.seen haccepted (helse b rfl) hc hinit
  | .loop _ _,_,h,hc,hinit => by
    obtain ⟨hcondition,hbody⟩ := h.loop hinit
    have hseen := hcondition.seen haccepted hc
    rw [Context.place,hinit] at hseen
    exact List.forall_mem_append.mpr ⟨hseen,StmtIn.seen haccepted hbody hc hinit⟩
  | .function d,_,h,hc,_ => by
    have hseen := FunctionIn.seen haccepted h.function (hc.define d.name.lexeme)
    rwa [Context.define,Context.mark_sites] at hseen
  | .return _ _,_,h,hc,hinit => by
    have hseen := (h.returning hinit).seen haccepted hc
    rwa [Context.place,hinit] at hseen
  | .class name superclass methods,c,h,hc,hinit => by
    have hparent : ∀ o ∈ Expr.optionOccurrences ⟨c.sites,none⟩ superclass, Seen program o := by
      cases superclass with
      | none => simp [Expr.optionOccurrences]
      | some e =>
        have hseen := (h.superclass_in haccepted hinit e rfl).seen haccepted hc
        rwa [Context.place,hinit] at hseen
    have hmethods := FunctionsIn.seen haccepted (hc.inClass name superclass methods) methods fun d hd => h.methods_in hd
    rw [Context.inClass_sites] at hmethods
    exact List.forall_mem_append.mpr ⟨hparent,hmethods⟩

theorem StmtsIn.seen (haccepted : Accepted program) : ∀ {bs : List Stmt} {c : Context}, StmtsIn program c bs →
    c.Receives → c.initializing = none → ∀ o ∈ Stmt.listOccurrences c.sites bs, Seen program o
  | [],_,_,_,_ => by simp [Stmt.listOccurrences]
  | b :: _,_,h,hc,hinit => by
    have hinit' := (Context.defineIf_initializing _ b.declared?).trans hinit
    have hrest := StmtsIn.seen haccepted h.cons.2 (hc.defineIf b.declared?) hinit'
    rw [Context.defineIf_sites] at hrest
    exact List.forall_mem_append.mpr ⟨StmtIn.seen haccepted h.cons.1 hc hinit,hrest⟩

theorem FunctionIn.seen (haccepted : Accepted program) : ∀ {d : FunctionDecl} {c : Context}
    {context : FunctionContext}, FunctionIn program c context d → c.Receives →
    ∀ o ∈ Stmt.functionOccurrences c.sites d, Seen program o
  | ⟨name,parameters,body⟩,_,context,h,hc =>
    StmtsIn.seen haccepted h.body (hc.calling context ⟨name,parameters,body⟩) rfl

theorem FunctionsIn.seen (haccepted : Accepted program) {c : Context} (hc : c.Receives) : ∀ ds : List FunctionDecl,
    (∀ d ∈ ds, ∃ context, FunctionIn program (c.receiving d) context d) →
    ∀ o ∈ Stmt.methodOccurrences c.sites ds, Seen program o
  | [],_ => by simp [Stmt.methodOccurrences]
  | d :: ds,h => by
    obtain ⟨context,hd⟩ := h d List.mem_cons_self
    exact List.forall_mem_append.mpr ⟨FunctionIn.seen haccepted hd (hc.receiving d),
      FunctionsIn.seen haccepted hc ds fun d' hd' => h d' (List.mem_cons_of_mem _ hd')⟩

end

/-! ### Programs -/

theorem places_seen (haccepted : Accepted program) (hproper : Stmt.ListProper program) :
    ∀ o ∈ places program, Seen program o := by
  have hprogram : StmtsIn program .top program :=
    ⟨hproper,⟨⟨⟨[],[]⟩,rfl,List.Subset.refl _⟩,List.Subset.refl _⟩,by simp [Context.top]⟩
  exact hprogram.seen haccepted .top rfl

/-- Between an occurrence of `this` and the scope that scoping finds for it, there is no receiver. -/
theorem Recorded.innermost (h : Recorded program c id "this") (haccepted : Accepted program)
    (hproper : Stmt.ListProper program) (hnodup : ((places program).map Prod.fst).Nodup) {d : Nat}
    (hd : Scoping.depth? c.scopes "this" = some d) {e : Nat} (he : e < d) (method : FunctionDecl) :
    c.sites[e]? ≠ some (.receiver method) := by
  obtain ⟨k,name,hk,hplace,hrecorded⟩ := places_seen haccepted hproper _ h.place
  obtain ⟨rfl,hdepth⟩ := finding_once hnodup hrecorded.finding h.finding
  have hsites : k.sites = c.sites := congrArg Place.sites hplace
  exact hsites ▸ hk.innermost (hdepth.trans hd) he method

end Lox

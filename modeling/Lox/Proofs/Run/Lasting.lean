import Lox.Proofs.Run.Evolution

/-! What a heap has at some moment of a run, it has until the run ends, and each of its classes is that of a class
declaration. -/
namespace Lox

open Eval

variable {r : Run} {w w' : Work} {m m' : Machine}

/-- Up to the start of a part. -/
theorem Starts.evolves (hs : Starts w m w' m') (h : Visits r w m) : m.heap.Evolves r m'.heap := by
  have hexpr {n : Nat} {e : Expr} {v : Value} {m m₁ : Machine} (h : Visits r (.expr n e) m)
      (he : evaluate n e m = .ok v m₁) : m.heap.Evolves r m₁.heap := ((evolving r n).expr e m h).ok he
  have hstmt {n : Nat} {s : Stmt} {flow : Flow} {m m₁ : Machine} (h : Visits r (.stmt n s) m)
      (hs : execute n s m = .ok flow m₁) : m.heap.Evolves r m₁.heap := ((evolving r n).stmt s m h).ok hs
  cases hs with
  | binary_right ha => exact hexpr (h.step .binary_left) ha
  | logical_right ha => exact hexpr (h.step .logical_left) ha
  | ternary_true hc | ternary_false hc => exact hexpr (h.step .ternary_condition) hc
  | arguments he => exact hexpr (h.step .callee) he
  | @invoke n e paren es m f m₁ vs m₂ name he hes =>
    have hes' : m₁.heap.Evolves r m₂.heap := ((evolving r n).exprs (h.step (.arguments he))).ok hes
    exact (hexpr (h.step .callee) he).trans hes'
  | get_method he => exact hexpr (h.step .get_object) he
  | set_value he => exact hexpr (h.step .set_object) he
  | exprs_tail he => exact hexpr (h.step .exprs_head) he
  | branch_then hc | branch_else hc => exact hexpr (h.step .branch_condition) hc
  | @class_derived n name e methods m c m₁ he =>
    exact hexpr (m := m.note (.classDefined name.lexeme)) (h.step .superclass) he
  | loop_body hc => exact hexpr (h.step .loop_condition) hc
  | loop_again hc hv hs =>
    exact (hexpr (h.step .loop_condition) hc).trans (hstmt (h.step (.loop_body hc hv)) hs)
  | stmts_tail hs => exact hstmt (h.step .stmts_head) hs
  | program_tail hs => exact hstmt (h.step .program_head) hs
  | block => exact .addScope .refl _ (.current h (Nat.le_refl _))
  | body => exact .addScope .refl _ (r.offers_closure m.heap _)
  | initializer => exact .addInstance .refl h (Nat.le_refl _)
  | construction => exact .bind (.addInstance .refl h (Nat.le_refl _)) _ _
  | _ => exact .refl

/-- From the end of a part. -/
theorem Starts.evolves_behind (hs : Starts w m w' m') (h : Visits r w m) :
    (w'.after m').heap.Evolves r (w.after m).heap := by
  -- Each case is what the work still has to do when the part is over.
  cases hs with
  | grouping => exact .refl
  | @unary n op => exact .behind fun v m₁ _ => (Evolves.composes r).outcome (applyUnary op v) m₁
  | @binary_left n a op b =>
    exact .behind fun v m₁ hv => .bind ((evolving r n).expr b m₁ (h.step (.binary_right hv))) fun w m₂ _ =>
      (Evolves.composes r).outcome (applyBinary op v w) m₂
  | @binary_right n a op b m v m₁ ha =>
    exact .later ha (.behind fun w m₂ _ => (Evolves.composes r).outcome (applyBinary op v w) m₂)
  | @logical_left n a op b =>
    exact .behind fun v m₁ hv => .ite (fun _ => .pure v) fun hgoes =>
      (evolving r n).expr b m₁ (h.step (.logical_right hv (by simpa using hgoes)))
  | logical_right ha hv => exact .later ha (by rw [hv]; exact .refl)
  | @ternary_condition n c a b =>
    exact .behind fun v m₁ hv => .ite (fun htrue => (evolving r n).expr a m₁ (h.step (.ternary_true hv htrue)))
      fun hfalse => (evolving r n).expr b m₁ (h.step (.ternary_false hv (by simpa using hfalse)))
  | ternary_true hc hv | ternary_false hc hv => exact .later hc (by rw [hv]; exact .refl)
  | @assign_value n id name => exact .behind fun v _ _ => .bind (.assign id name v) fun _ _ _ => .pure v
  | @callee n e paren es =>
    exact .behind fun f m₁ hf => .bind ((evolving r n).exprs (h.step (.arguments hf))) fun vs m₂ hvs =>
      (evolving r n).call h hf hvs
  | @arguments n e paren es m f m₁ he => exact .later he (.behind fun vs m₂ hvs => (evolving r n).call h he hvs)
  | @invoke n e paren es m f m₁ vs m₂ name he hes hf hdepth =>
    refine .later he (.later hes ?_)
    rw [Eval.after_eq (call_invokes _ hf hdepth),after_nested]
    exact .refl
  | @get_object n e name => exact .behind fun v m₁ _ => (Evolves.composes r).getProperty v name m₁
  | @get_method n e name _ i _ f he hf =>
    have hget : evaluate (n + 1) (.get e name) m = .ok (.function (m'.heap.bind f i).1) (m'.binding f i) := by
      rw [evaluate,bind_of_ok he,getProperty_eq,hf]
      rfl
    exact .of_eq (by rw [Work.after,Eval.after,hget]; rfl)
  | @set_object n e name v => exact .behind ((evolving r n).set_after_object h)
  | @set_value n e name v m i m₁ he =>
    exact .later he (.behind fun w m₂ _ => .bind (.of_ok rfl (.setField .refl i name.lexeme w)) fun _ _ _ => .pure w)
  | @super_method n id keyword method m d c i f hd hc hi hf =>
    have hsuper : evaluate (n + 1) (.super id keyword method) m = _ := superMethod_eq keyword method hd hc hi
    rw [Work.after,Work.after,Eval.after_eq hsuper,hf]
    exact .refl
  | @exprs_head n e es =>
    exact .behind fun v m₁ hv => .bind ((evolving r n).exprs (h.step (.exprs_tail hv))) fun _ _ _ => .pure _
  | exprs_tail he => exact .later he (.behind fun _ _ _ => .pure _)
  | expression => exact .behind fun _ _ _ => .pure _
  | @print n e =>
    refine .behind (x := evaluate n e) fun v m₁ _ => ?_
    exact .bind (x := Eval.heap) (.of_ok rfl .refl) fun _ _ _ => .bind (.print _) fun _ _ _ => .pure _
  | var => exact .behind fun v _ _ => .bind (.note _) fun _ _ _ => .bind (.define _ v) fun _ _ _ => .pure _
  | @block n body m =>
    have hblock : execute (n + 1) (.block body) m =
        Eval.inScope (m.inNew ⟨∅,some m.scope⟩).scope (executeEach (execute n) body)
          { m with heap := (m.inNew ⟨∅,some m.scope⟩).heap } := rfl
    rw [Work.after,Work.after,Eval.after_eq hblock,after_inScope]
    exact .refl
  | @branch_condition n c s t =>
    refine .behind fun v m₁ hv => .ite (fun htrue => (evolving r n).stmt s m₁ (h.step (.branch_then hv htrue)))
      fun hfalse => ?_
    cases t with
    | none => exact .pure _
    | some t => exact (evolving r n).stmt t m₁ (h.step (.branch_else hv (by simpa using hfalse)))
  | branch_then hc hv | branch_else hc hv => exact .later hc (by rw [hv]; exact .refl)
  | loop => exact .refl
  | returning => exact .behind fun _ _ _ => .pure _
  | @superclass n name e methods m =>
    refine .later (x := note (.classDefined name.lexeme)) rfl ?_
    refine .trans (.behind (x := evaluate n e) fun v _ _ => .superclass name e v)
      (.behind (x := superclassOf (evaluate n) name (some e)) fun parent m₁ hparent => ?_)
    obtain ⟨k,rfl,he⟩ := superclassOf_ok hparent
    exact .bind (h.step (.class_derived he)).class_evolves fun _ _ _ => .pure _
  | class_alone => exact .behind fun _ _ _ => .pure _
  | @class_derived n name e methods m c m₁ he =>
    refine .later (x := note (.classDefined name.lexeme)) rfl ?_
    exact .later (superclassOf_class _ he) (.behind fun _ _ _ => .pure _)
  | @loop_condition n c s k =>
    exact .behind fun _ _ => (evolving r n).loop_after_condition (evolving r n).loop h
  | @loop_body n c s k m v m₁ hc hv =>
    refine .later hc ?_
    rw [hv]
    exact .behind (Evolving.loop_after_body (evolving r n).loop h hc hv)
  | loop_again hc hv hs => exact .later hc (by rw [hv]; exact .later hs .refl)
  | @stmts_head n s ss =>
    refine .behind fun flow m₁ hflow => ?_
    cases flow with
    | normal => exact (evolving r n).stmts (h.step (.stmts_tail hflow))
    | returned v => exact .pure _
  | stmts_tail hs => exact .later hs .refl
  | @program_head n s ss =>
    exact .behind fun flow m₁ hflow => (evolving r n).program (h.step (.program_tail hflow))
  | program_tail hs => exact .later hs .refl
  | function => exact .refl
  | @initializer n c paren vs m f hf =>
    have hall := Eval.Evolves.bind (f := fun _ => return Value.instance ⟨m.heap.instances.size⟩)
      ((evolving r n).apply (h.step (.construction hf))) fun _ _ _ => .pure _
    rwa [Eval.Evolves,← Eval.after_eq (construct_some _ vs hf)] at hall
  | @construction n c paren vs m f hf =>
    rw [Work.after,Work.after,Eval.invoke,Eval.after_eq (construct_some _ vs hf)]
    exact .behind fun _ _ _ => .pure _
  | @body n f vs m =>
    let m₁ : Machine := { m.note (.functionCalled (m.heap.getFunction f).name) with heap := (m.calling f vs).heap }
    let x := Eval.inScope (m.calling f vs).scope (executeEach (execute n) (m.heap.getFunction f).declaration.body)
    have hbody : ((executeEach (execute n) (m.heap.getFunction f).declaration.body).after (m.calling f vs)).heap =
        (x.after m₁).heap := by
      rw [after_inScope]
      rfl
    rw [Work.after,Work.after,Eval.after_eq (apply_eq n f vs m),hbody]
    exact .behind fun flow m₂ _ => (Evolves.composes r).callResult _ flow m₂

/-- The machine that the statements of a run leave. -/
def Run.left (r : Run) : Machine := (Work.program r.budget r.program).after r.machine

namespace Visits

theorem evolves_since (h : Visits r w m) : r.machine.heap.Evolves r m.heap := by
  induction h with
  | start => exact .refl
  | step h hs ih => exact ih.trans (hs.evolves h)

/-- From the end of any work to the end of the run. -/
theorem evolves_until (h : Visits r w m) : (w.after m).heap.Evolves r r.left.heap := by
  induction h with
  | start => exact .refl
  | step h hs ih => exact (hs.evolves_behind h).trans ih

end Visits

/-! ### Where classes come from -/

/-- The class was made for this declaration when one of the runs came to it. It has the methods of the declaration. -/
inductive Heap.Made (runs : List Run) (h : Heap) (c : ClassId) (name : Token) (parent : Option ClassId)
    (ds : List FunctionDecl) : Prop
  | declared {r m closure methods} (hr : r ∈ runs) (hvisits : Visits r (.classDefinition name parent ds) m)
    (hplace : c = ⟨m.heap.classes.size⟩) (hclass : h.getClass c = ⟨name.lexeme,parent,.ofList methods⟩)
    (hmethods : h.Methods closure ds methods)

/-- All classes were made for declarations. -/
def Heap.Built (runs : List Run) (h : Heap) : Prop :=
  ∀ c, c.index < h.classes.size → ∃ name parent ds, h.Made runs c name parent ds

variable {runs later : List Run} {h h' : Heap}

theorem Heap.Made.kept {c : ClassId} {name : Token} {parent : Option ClassId} {ds : List FunctionDecl}
    (hc : c.index < h.classes.size) (hkept : h.Kept h') :
    h.Made runs c name parent ds → h'.Made runs c name parent ds
  | .declared hr hvisits hplace hclass hmethods =>
    .declared hr hvisits hplace ((hkept.getClass c hc).trans hclass) (hmethods.extends hkept.toExtends)

theorem Heap.Built.mono (hruns : runs ⊆ later) (hh : h.Built runs) : h.Built later := by
  intro c hc
  obtain ⟨name,parent,ds,hmade⟩ := hh c hc
  cases hmade with
  | declared hr hvisits hplace hclass hmethods =>
    exact ⟨name,parent,ds,.declared (hruns hr) hvisits hplace hclass hmethods⟩

theorem Heap.Evolves.built (hevolves : h.Evolves r h') (hr : r ∈ runs) (hh : h.Built runs) : h'.Built runs := by
  have hsame {h h' : Heap} (hh : h.Built runs) (hkept : h.Kept h') (hsize : h'.classes.size = h.classes.size) :
      h'.Built runs := by
    intro c hc
    rw [hsize] at hc
    obtain ⟨name,parent,ds,hmade⟩ := hh c hc
    exact ⟨name,parent,ds,hmade.kept hc hkept⟩
  induction hevolves with
  | refl => exact hh
  | define _ i name v ih => exact hsame ih (.of_grows (.define _ i name v) rfl rfl) rfl
  | addScope _ _ _ ih => exact hsame ih (.of_grows (.addScope _ _) rfl rfl) rfl
  | addFunction _ _ ih => exact hsame ih (.of_grows (.addFunction _ _) rfl rfl) rfl
  | addInstance _ _ _ ih => exact hsame ih (.addInstance _ _) rfl
  | setField _ i name v ih => exact hsame ih (.setField _ i name v) rfl
  | @addClass h' name parent ds closure methods m _ hvisits hsize hmethods ih =>
    intro c hc
    have hkept := Heap.Kept.addClass h' ⟨name.lexeme,parent,.ofList methods⟩
    by_cases hold : c.index < h'.classes.size
    · obtain ⟨name,parent,ds,hmade⟩ := ih c hold
      exact ⟨name,parent,ds,hmade.kept hold hkept⟩
    · have hnew : c.index = h'.classes.size := by
        simp only [Heap.addClass,Array.size_push] at hc
        omega
      refine ⟨name,parent,ds,.declared hr hvisits ?_ ?_ (hmethods.extends hkept.toExtends)⟩
      · rw [← hsize,← hnew]
      · rw [Heap.getClass_addClass,if_pos hnew]

end Lox

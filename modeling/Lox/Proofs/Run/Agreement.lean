import Lox.Proofs.Run.Statement

/-! In the course of a run, a name that is read stands for the declaration that scoping has found, and
only an assignment can be at fault when scopes and syntax tree disagree. -/
namespace Lox

open Eval

/-- The scope that lies `d` steps outward binds the name, and it was made for the static scope at this
distance from the place, which declares the name. -/
def Agrees (runs : List Run) (m : Machine) (place : Place) (name : String) (d : Nat) : Prop :=
  ∃ j site, m.heap.ancestor m.scope d = .ok j ∧ m.heap.Binds j name ∧ place.sites[d]? = some site ∧
    site.Declares name ∧ Activation runs site j

theorem Agrees.mono {runs later : List Run} (h : runs ⊆ later) {m : Machine} {place : Place}
    {name : String} {d : Nat} : Agrees runs m place name d → Agrees later m place name d
  | ⟨j,site,hj,hbinds,hsite,hdeclares,hactivation⟩ =>
    ⟨j,site,hj,hbinds,hsite,hdeclares,hactivation.mono h⟩

/-- How a piece of work stops, if it does. -/
def Work.halt? (w : Work) (m : Machine) : Option Halt :=
  let halt {α : Type} (x : Eval α) : Option Halt := match x m with
    | .ok _ _ => none
    | .error halt _ => some halt
  match w with
  | .program n ss => halt (Machine.executeProgram n ss)
  | .stmts n ss => halt (executeEach (execute n) ss)
  | .stmt n s => halt (execute n s)
  | .loop n condition body k => halt (whileLoop (evaluate n condition) (execute n body) k)
  | .expr n e => halt (evaluate n e)
  | .exprs n es => halt (evaluateEach (evaluate n) es)
  | .invoke n f paren vs => halt (Eval.invoke (executeEach (execute n)) f paren vs)
  | .apply n f vs => halt (Eval.apply (executeEach (execute n)) f vs)
  | .bind _ _ => none
  | .classDefinition name parent methods => halt (Eval.defineClass name parent methods)

def Work.IsAssignment (w : Work) : Prop := ∃ n id name e, w = .expr n (.assign id name e)

variable {runs : List Run} {r p : Run} {c : Context} {m m' : Machine} {n : Nat} {w : Work} {e : Expr}
  {id : ExprId} {name : String}

/-! ### Reading -/

theorem At.agrees (hat : At runs c m) {d : Nat} (hd : Scoping.depth? c.scopes name = some d)
    (hdefined : c.initializing ≠ some name) : Agrees runs m c.place name d := by
  obtain ⟨j,v,site,hancestor,-,hv,hsite,hdeclares,hactivation⟩ := hat.lookupAt hd hdefined
  have hbinds : m.heap.Binds j name := by simp [Heap.Binds,Bindings.contains,hv]
  exact ⟨j,site,hancestor,hbinds,hsite,hdeclares,hactivation⟩

theorem Met.reads (h : Met runs r (.expr n e) m) (he : e.reads? = some (id,name)) :
    ∃ p ∈ runs, ∃ place depth, (id,place) ∈ places p.program ∧
      .occurrence id name depth ∈ findings p.program ∧ m.distances.find? id = depth ∧
      ∀ d, depth = some d → Agrees runs m place name d := by
  obtain ⟨c,hat,p,hp,hpart⟩ := h.typed
  obtain ⟨hrecorded,hdefined⟩ := hpart.reads (hat.accepted p hp) hat he
  refine ⟨p,hp,c.place,_,hrecorded.place,hrecorded.finding,hat.tabled p hp _ _ _ hrecorded.finding,?_⟩
  intro d hd
  exact hat.agrees hd (hdefined d hd)

/-! ### Writing -/

/-- An assignment to a local name fails exactly in the initial value of the variable itself. -/
theorem Met.writes {t : Token} {v : Value} (h : Met runs r (.expr (n + 1) (.assign id t e)) m)
    (he : evaluate n e m = .ok v m') :
    ∃ p ∈ runs, ∃ place depth, (id,place) ∈ places p.program ∧
      .occurrence id t.lexeme depth ∈ findings p.program ∧ m'.distances.find? id = depth ∧
      ∀ d, depth = some d →
        (place.initializing ≠ some t.lexeme ∧ Agrees runs m' place t.lexeme d ∧
          ∃ h, Eval.assign id t v m' = .ok () { m' with heap := h }) ∨
        (place.initializing = some t.lexeme ∧ d = 0 ∧ ¬m'.heap.Binds m'.scope t.lexeme ∧
          Eval.assign id t v m' = raise (.internal (.unbound t.lexeme 0)) m') := by
  have hn := safe runs r n
  obtain ⟨c,hat,p,hp,hpart⟩ := h.typed
  obtain ⟨-,-,hrecorded⟩ := hpart.assign
  obtain ⟨hat',-⟩ := hn.at_after hat (hn.expr_step h .assign_value) he
  have hfind := hat'.tabled p hp _ _ _ hrecorded.finding
  refine ⟨p,hp,c.place,_,hrecorded.place,hrecorded.finding,hfind,fun d hd => ?_⟩
  have htarget : Eval.target id t m' = checked (m'.heap.holderAt m'.scope d t.lexeme) m' := by
    rw [target_eq,hfind,hd]
  by_cases hinit : c.initializing = some t.lexeme
  · obtain ⟨rfl,hunbound⟩ := hat'.unbound hd hinit
    have hnone : (m'.heap.getScope m'.scope).bindings.find? t.lexeme = none := by
      simpa [Heap.Binds,Bindings.contains] using hunbound
    have hlookup : m'.heap.holderAt m'.scope 0 t.lexeme = .error (.unbound t.lexeme 0) := by
      simp [Heap.holderAt,Heap.lookupAt,Heap.ancestor,Heap.outward,hnone,Except.map]
    rw [hlookup] at htarget
    exact .inr ⟨hinit,rfl,hunbound,assign_raise htarget v⟩
  · obtain ⟨j,w,-,-,hlookup,-⟩ := hat'.lookupAt hd hinit
    rw [Heap.holderAt,hlookup] at htarget
    exact .inl ⟨hinit,hat'.agrees hd hinit,_,assign_ok htarget v⟩

/-! ### Internal errors -/

theorem Met.lookUp_not_internal (h : Met runs r (.expr n e) m) {t : Token}
    (he : e.reads? = some (id,t.lexeme)) (fault : InternalFault) :
    Eval.lookUp id t m ≠ .error (.error (.internal fault)) m' := by
  rcases h.lookUp he with ⟨v,hv,-⟩ | hruntime
  · simp [hv]
  · simp [hruntime,runtime,raise]

theorem Met.superMethod_not_internal {keyword method : Token}
    (h : Met runs r (.expr (n + 1) (.super id keyword method)) m) (fault : InternalFault) :
    Eval.superMethod id keyword method m ≠ .error (.error (.internal fault)) m' := by
  intro hx
  obtain ⟨c,hat,p,hp,hpart⟩ := h.typed
  obtain ⟨hrecorded,hclass⟩ := hpart.super (hat.accepted p hp)
  obtain ⟨d,k,i,hd,hsuper,hthis⟩ := hat.superclass hp hrecorded hclass
  rw [superMethod_eq _ _ hd hsuper hthis] at hx
  cases hfound : m.heap.findMethod? k method.lexeme with
  | none =>
    simp only [hfound] at hx
    simp [runtime,raise] at hx
  | some f =>
    simp only [hfound] at hx
    cases hx

/-- An initializer that has ended still finds its instance. -/
theorem Met.receiver_bound {f : FunctionId} {vs : List Value} {flow : Flow}
    (h : Met runs r (.apply n f vs) m) (hinit : (m.heap.getFunction f).isInitializer = true)
    (hbody : executeEach (execute n) (m.heap.getFunction f).declaration.body (m.calling f vs) =
      .ok flow m') : ∃ v, m'.heap.getAt (m.heap.getFunction f).closure 0 "this" = .ok v := by
  obtain ⟨hready,⟨-,p,c,context,hf⟩,-⟩ := h.typed
  obtain ⟨hfinished,hflow⟩ := ((safe runs r n).stmts (h.apply_step .body)).ok hbody
  have hgrown := (Heap.Extends.addScope m.heap _).trans hfinished.later.heap
  obtain ⟨v,hv,-⟩ := (hf.extends hgrown).callResult hfinished.good hflow
  have hresult : Eval.callResult (m.heap.getFunction f) flow m' =
      checked (m'.heap.getAt (m.heap.getFunction f).closure 0 "this") m' := by
    simp only [Eval.callResult,hinit]
    rfl
  cases hx : m'.heap.getAt (m.heap.getFunction f).closure 0 "this" with
  | ok v => exact ⟨v,rfl⟩
  | error fault =>
    rw [hx,hv] at hresult
    cases hresult

/-- Of all work, only assignments end with an internal error of their own. -/
theorem Met.raises {fault : InternalFault} (h : Met runs r w m) (hraises : Raises w m fault) :
    w.IsAssignment := by
  cases hraises with
  | «variable» hx => exact absurd hx (h.lookUp_not_internal rfl fault)
  | this hx => exact absurd hx (h.lookUp_not_internal rfl fault)
  | super hx => exact absurd hx (h.superMethod_not_internal fault)
  | assign he hx => exact ⟨_,_,_,_,rfl⟩
  | unary he hx =>
    obtain ⟨c,hat,p,hp,hpart⟩ := h.typed
    exact absurd hx ((applyUnary_computes hpart.proper.1 _).not_internal fault)
  | binary ha hb hx =>
    obtain ⟨c,hat,p,hp,hpart⟩ := h.typed
    exact absurd hx ((applyBinary_computes hpart.proper.1 _ _).not_internal fault)
  | initializer hbody hinit hx =>
    obtain ⟨v,hv⟩ := h.receiver_bound hinit hbody
    rw [hx] at hv
    cases hv

theorem Met.blame {fault : InternalFault} (h : Met runs r w m)
    (hhalt : w.halt? m = some (.error (.internal fault))) :
    ∃ w' m', Visits r w' m' ∧ w'.IsAssignment ∧ Raises w' m' fault := by
  have hstopped {α : Type} {P : String → Prop} {x : Eval α} {post : α → Heap → Prop}
      (hx : Finishes runs r P x m post)
      (hhalt : (match x m with
        | .ok _ _ => none
        | .error halt _ => some halt : Option Halt) = some (.error (.internal fault))) :
      ∃ w' m', Visits r w' m' ∧ w'.IsAssignment ∧ Raises w' m' fault := by
    split at hhalt
    next => simp at hhalt
    next halt m' heq =>
      obtain rfl := Option.some.inj hhalt
      obtain ⟨n,id,name,e,m₁,hvisits,hraises⟩ := (hx.error heq).blame fault rfl
      exact ⟨_,m₁,hvisits,⟨n,id,name,e,rfl⟩,hraises⟩
  cases w with
  | program n ss => exact hstopped ((safe runs r n).program h) hhalt
  | stmts n ss => exact hstopped ((safe runs r n).stmts h) hhalt
  | stmt n s => exact hstopped ((safe runs r n).stmt s m h) hhalt
  | loop n condition body k => exact hstopped ((safe runs r n).loop h) hhalt
  | expr n e => exact hstopped ((safe runs r n).expr e m h) hhalt
  | exprs n es => exact hstopped ((safe runs r n).exprs h) hhalt
  | invoke n f paren vs => exact hstopped ((safe runs r n).invoke h) hhalt
  | apply n f vs => exact hstopped ((safe runs r n).apply h) hhalt
  | bind f i => simp [Work.halt?] at hhalt
  | classDefinition name parent methods => exact hstopped h.defineClass hhalt

end Lox

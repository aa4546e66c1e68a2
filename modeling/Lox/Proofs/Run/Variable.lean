import Lox.Proofs.Run.ClassDefinition

/-! Names that scoping has found are found again in the scopes of a run, and bound there, except for a
variable that is assigned in its own initial value. -/
namespace Lox

open Eval

/-- The name that an expression reads by itself. -/
def Expr.reads? : Expr → Option (ExprId × String)
  | .variable id name => some (id,name.lexeme)
  | .this id keyword | .super id keyword _ => some (id,keyword.lexeme)
  | _ => none

variable {runs : List Run} {r p : Run} {c : Context} {m m' : Machine} {n : Nat} {id : ExprId}
  {e : Expr}

/-- A local name that is defined where it is used is bound in the scope that belongs to the static one. -/
theorem At.lookupAt (hat : At runs c m) {name : String} {d : Nat}
    (hd : Scoping.depth? c.scopes name = some d) (hdefined : c.initializing ≠ some name) :
    ∃ j v site, m.heap.ancestor m.scope d = .ok j ∧ m.heap.lookupAt m.scope d name = .ok (j,v) ∧
      (m.heap.getScope j).bindings.find? name = some v ∧
      c.place.sites[d]? = some site ∧ site.Declares name ∧ Activation runs site j := by
  obtain ⟨f,hf,hname,hdeclares⟩ := hat.coherent.defined hd hdefined
  obtain ⟨j,v,hancestor,hsite,hlookup,hv⟩ := hat.chain.lookupAt hf hname
  have hplace : c.place.sites[d]? = some f.site := by simp [Context.place,Context.sites,hf]
  exact ⟨j,v,f.site,hancestor,hlookup,hv,hplace,hdeclares,hsite⟩

theorem At.getAt (hat : At runs c m) {name : String} {d : Nat}
    (hd : Scoping.depth? c.scopes name = some d) (hdefined : c.initializing ≠ some name) :
    ∃ j v, m.heap.getAt m.scope d name = .ok v ∧ (m.heap.getScope j).bindings.find? name = some v := by
  obtain ⟨j,v,-,-,hlookup,hv,-⟩ := hat.lookupAt hd hdefined
  exact ⟨j,v,by rw [Heap.getAt,hlookup]; rfl,hv⟩

/-- A variable that is being given its initial value is not bound yet. -/
theorem At.unbound (hat : At runs c m) {name : String} {d : Nat}
    (hd : Scoping.depth? c.scopes name = some d) (hinit : c.initializing = some name) :
    d = 0 ∧ ¬ m.heap.Binds m.scope name := by
  obtain ⟨rfl,f,hf,hfalse⟩ := hat.coherent.undefined hd hinit
  refine ⟨rfl,fun hbinds => ?_⟩
  have htrue := hat.exact f hf name hbinds
  simp [hfalse] at htrue

theorem lookUp_eq (id : ExprId) (name : Token) (m : Machine) :
    Eval.lookUp id name m = (match m.distances.find? id with
      | some distance => checked (m.heap.getAt m.scope distance name.lexeme)
      | none => match m.heap.get? Heap.globals name.lexeme with
        | some value => return value
        | none => Eval.runtime (.undefinedVariable name.lexeme) name : Eval Value) m :=
  rfl

/-- What is read is the value of the scope that scoping has found, or of a global name. -/
theorem At.lookUp (hat : At runs c m) (hp : p ∈ runs) {name : Token}
    (hrecorded : Recorded p.program c id name.lexeme)
    (hdefined : ∀ d, Scoping.depth? c.scopes name.lexeme = some d → c.initializing ≠ some name.lexeme) :
    (∃ v, Eval.lookUp id name m = .ok v m ∧ Valid runs m.heap v) ∨
      Eval.lookUp id name m = Eval.runtime (.undefinedVariable name.lexeme) name m := by
  have hfind := hat.tabled p hp id _ _ hrecorded.finding
  have hlookup := lookUp_eq id name m
  rw [hfind] at hlookup
  cases hd : Scoping.depth? c.scopes name.lexeme with
  | some d =>
    obtain ⟨j,v,hget,hv⟩ := hat.getAt hd (hdefined d hd)
    simp only [hd,hget] at hlookup
    exact .inl ⟨v,hlookup,(hat.good.scope j).valid _ v hv⟩
  | none =>
    cases hget : m.heap.get? Heap.globals name.lexeme with
    | some v =>
      obtain ⟨⟨j,w⟩,hj,rfl⟩ := Option.map_eq_some_iff.mp hget
      simp only [hd,hget] at hlookup
      exact .inl ⟨w,hlookup,(hat.good.scope j).valid _ w (Heap.lookup?_binds hj)⟩
    | none =>
      simp only [hd,hget] at hlookup
      exact .inr hlookup

/-- What is read has been found by scoping, and not in its own initial value. -/
theorem ExprIn.reads {name : String} (haccepted : Accepted p.program) (hat : At runs c m)
    (h : ExprIn p.program c e) (he : e.reads? = some (id,name)) : Recorded p.program c id name ∧
      ∀ d, Scoping.depth? c.scopes name = some d → c.initializing ≠ some name := by
  cases e with
  | «variable» id' t =>
    obtain ⟨rfl,rfl⟩ := Prod.mk.inj (Option.some.inj he)
    obtain ⟨hrecorded,hhead⟩ := h.identifier haccepted
    exact ⟨hrecorded,fun d hd => hat.coherent.not_initializing hhead hd⟩
  | this id' keyword =>
    obtain ⟨rfl,rfl⟩ := Prod.mk.inj (Option.some.inj he)
    have hkeyword : keyword.lexeme = "this" := h.proper
    rw [hkeyword]
    exact ⟨(h.this haccepted).1,fun _ _ hinit => (hat.coherent.fresh _ hinit).1 rfl⟩
  | super id' keyword method =>
    obtain ⟨rfl,rfl⟩ := Prod.mk.inj (Option.some.inj he)
    have hkeyword : keyword.lexeme = "super" := h.proper
    rw [hkeyword]
    exact ⟨(h.super haccepted).1,fun _ _ hinit => (hat.coherent.fresh _ hinit).2 rfl⟩
  | _ => simp [Expr.reads?] at he

/-- A read gives a valid value, or finds no global name. -/
theorem Met.lookUp (h : Met runs r (.expr n e) m) {name : Token} (he : e.reads? = some (id,name.lexeme)) :
    (∃ v, Eval.lookUp id name m = .ok v m ∧ Valid runs m.heap v) ∨
      Eval.lookUp id name m = Eval.runtime (.undefinedVariable name.lexeme) name m := by
  obtain ⟨c,hat,p,hp,hpart⟩ := h.typed
  obtain ⟨hrecorded,hdefined⟩ := hpart.reads (hat.accepted p hp) hat he
  exact hat.lookUp hp hrecorded hdefined

/-- Around the methods of a subclass, `super` is a class and `this` an instance. -/
theorem At.superclass (hat : At runs c m) (hp : p ∈ runs) (hrecorded : Recorded p.program c id "super")
    (hclass : c.around.inClass = .subclass) :
    ∃ d k i, m.distances.find? id = some (d + 1) ∧
      m.heap.getAt m.scope (d + 1) "super" = .ok (.class k) ∧
      m.heap.getAt m.scope d "this" = .ok (.instance i) := by
  obtain ⟨-,-,d,f,-,hd,hf,hthis⟩ := hat.coherent.superclass hclass
  have hsuper : c.initializing ≠ some "super" := fun hinit => (hat.coherent.fresh _ hinit).2 rfl
  have hreceiver : c.initializing ≠ some "this" := fun hinit => (hat.coherent.fresh _ hinit).1 rfl
  obtain ⟨j,v,hget,hv⟩ := hat.getAt hd hsuper
  obtain ⟨k,rfl⟩ := (hat.good.scope j).super v hv
  have hfind := hat.tabled p hp id _ _ hrecorded.finding
  have hdefined : f.names.find? "this" = some true := hat.coherent.defined_at hf hthis hreceiver
  obtain ⟨j',v',-,-,hlookup,hv'⟩ := hat.chain.lookupAt hf hdefined
  obtain ⟨i,rfl⟩ := (hat.good.scope j').this v' hv'
  exact ⟨d,k,i,hfind.trans hd,hget,by rw [Heap.getAt,hlookup]; rfl⟩

theorem target_eq (id : ExprId) (name : Token) (m : Machine) :
    Eval.target id name m = (match m.distances.find? id with
      | some distance => checked (m.heap.holderAt m.scope distance name.lexeme)
      | none => match m.heap.holder? Heap.globals name.lexeme with
        | some scope => return scope
        | none => Eval.runtime (.undefinedVariable name.lexeme) name : Eval ScopeId) m :=
  rfl

/-- An assignment changes a binding that is there, or fails. -/
theorem target_cases (id : ExprId) (name : Token) (m : Machine) :
    (∃ j, Eval.target id name m = .ok j m ∧ m.heap.Binds j name.lexeme) ∨
      ∃ e, Eval.target id name m = Eval.raise e m := by
  have htarget := target_eq id name m
  cases hfind : m.distances.find? id with
  | some d =>
    cases hlookup : m.heap.lookupAt m.scope d name.lexeme with
    | ok jv =>
      simp only [hfind,Heap.holderAt,hlookup] at htarget
      exact .inl ⟨jv.1,htarget,Heap.lookupAt_binds hlookup⟩
    | error fault =>
      simp only [hfind,Heap.holderAt,hlookup] at htarget
      exact .inr ⟨_,htarget⟩
  | none =>
    cases hholder : m.heap.holder? Heap.globals name.lexeme with
    | some j =>
      simp only [hfind,hholder] at htarget
      exact .inl ⟨j,htarget,Heap.holder?_binds hholder⟩
    | none =>
      simp only [hfind,hholder] at htarget
      exact .inr ⟨_,htarget⟩

theorem assign_ok {name : Token} {j : ScopeId} (h : Eval.target id name m = .ok j m) (v : Value) :
    Eval.assign id name v m = .ok () { m with heap := m.heap.define j name.lexeme v } := by
  show EStateM.bind _ _ _ = _
  simp only [EStateM.bind,h]
  rfl

theorem assign_raise {name : Token} {e : Error} (h : Eval.target id name m = Eval.raise e m) (v : Value) :
    Eval.assign id name v m = Eval.raise e m := by
  show EStateM.bind _ _ _ = _
  simp only [EStateM.bind,h]
  rfl

end Lox

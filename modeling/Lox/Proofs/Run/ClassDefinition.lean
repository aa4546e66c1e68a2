import Lox.Proofs.Run.Call

/-! Class declarations: the methods of a class close over the scope of the declaration, and in a
subclass over one more scope, which holds `super`. -/
namespace Lox

open Eval

variable {runs : List Run} {r : Run} {m m' : Machine} {n : Nat}

/-- A name is defined in the current scope. -/
theorem define_finishes (hgood : Good runs m.heap) {name : Token} (hname : name.IsName) {v : Value}
    (hv : Valid runs m.heap v) :
    Finishes runs r (· = name.lexeme) (Eval.define name.lexeme v) m fun _ h =>
      m.scope.index < m.heap.scopes.size → h.Binds m.scope name.lexeme :=
  .of_ok rfl ⟨.define name.lexeme v,hgood.define hname hv m.scope⟩ fun hlt =>
    (Heap.binds_define _ _ _ _ _ _).mpr (.inl ⟨rfl,hlt,rfl⟩)

/-- The methods are kept in the class without a receiver. -/
theorem addMethods_finishes {p : Run} (hp : p ∈ runs) {c : Context} {closure : ScopeId}
    {ds : List FunctionDecl} (hgood : Good runs m.heap) (hchain : Chain runs m.heap c.frames closure)
    (hds : ∀ d ∈ ds, (c.receiving d).Coherent ∧
      ∃ context, FunctionIn p.program (c.receiving d) context d) :
    Finishes runs r (fun _ => False) (addMethods closure ds) m fun methods h =>
      ∀ name f, (name,f) ∈ methods → IsMethod runs h f := by
  induction ds generalizing m with
  | nil => exact .of_ok rfl ⟨.refl _ m,hgood⟩ (by simp)
  | cons d ds ih =>
    let f : Function := ⟨d,closure,d.name.lexeme == "init"⟩
    have hadded : Finished runs (fun _ => False) m { m with heap := (m.heap.addFunction f).2 } :=
      ⟨.of_heap (.addFunction m.heap f) rfl rfl rfl,hgood.addFunction f⟩
    have hchain₁ := hchain.extends hadded.later.heap
    have hnew : (m.heap.addFunction f).2.getFunction ⟨m.heap.functions.size⟩ = f := by
      rw [Heap.getFunction_addFunction]
      exact if_pos rfl
    have hmethod : IsMethod runs (m.heap.addFunction f).2 ⟨m.heap.functions.size⟩ := by
      obtain ⟨hcoherent,context,hpart⟩ := hds d List.mem_cons_self
      refine ⟨by simp [Heap.addFunction],p,c,context,?_⟩
      rw [hnew]
      exact ⟨hp,hcoherent,hpart,hchain₁⟩
    have hrest := ih hadded.good hchain₁ fun d' hd' => hds d' (List.mem_cons_of_mem d hd')
    refine .after_same (y := _ >>= fun methods => return (d.name.lexeme,⟨m.heap.functions.size⟩) :: methods)
      rfl hadded (hrest.bind_same fun methods m₁ _ hfinished hall => ?_)
    refine .of_ok rfl ⟨.refl _ m₁,hfinished.good⟩ fun name g hg => ?_
    rcases List.mem_cons.mp hg with heq | hg
    · obtain ⟨-,rfl⟩ := Prod.mk.inj heq
      exact hmethod.extends hfinished.later.heap
    · exact hall name g hg

/-- The methods of a class close over a scope that belongs to the static one around them. -/
theorem At.methodScope {name : Token} {superclass : Option Expr} {methods : List FunctionDecl}
    {c : Context} (hat : At runs (c.define name.lexeme) m) {parent : Option ClassId}
    (hparent : superclass.isSome = parent.isSome)
    (hsite : ∀ k, parent = some k → Activation runs (.superclass name methods) ⟨m.heap.scopes.size⟩) :
    Finishes runs r (fun _ => False) (Eval.methodScope parent) m fun closure h =>
      Chain runs h (c.inClass name superclass methods).frames closure := by
  cases parent with
  | none =>
    obtain rfl : superclass = none := by simpa using hparent
    exact .of_ok rfl ⟨.refl _ m,hat.good⟩ hat.chain
  | some k =>
    obtain ⟨e,rfl⟩ := Option.isSome_iff_exists.mp hparent
    let s : Scope := ⟨(∅ : Bindings Value).insert "super" (.class k),some m.scope⟩
    have hsound : Sound runs m.heap s.bindings :=
      Sound.empty.insert trivial (fun heq => by simp at heq) (fun _ => ⟨k,rfl⟩)
    refine .of_ok rfl ⟨.addScope s,hat.good.addScope hsound⟩ ?_
    refine hat.chain.enter (s := s) rfl (fun other hother => ?_) (hsite k rfl)
    rw [Context.find?_single] at hother
    split at hother
    next heq => simp [s,heq,Bindings.contains]
    next => simp at hother

/-- A name that is bound already is bound to a new value. -/
theorem changeHolder_finishes {name : Token} {v : Value} (hgood : Good runs m.heap) (hname : name.IsName)
    (hv : Valid runs m.heap v) :
    Finishes runs r (fun _ => False)
      (match m.heap.holder? m.scope name.lexeme with
        | some holder => changeHeap (·.define holder name.lexeme v)
        | none => Eval.runtime (.undefinedVariable name.lexeme) name) m
      fun _ h => ∀ i other, m.heap.Binds i other → h.Binds i other := by
  split
  next holder hholder =>
    have hredefined : Later.Same m _ := .redefine (Heap.holder?_binds hholder) v
    exact .of_ok rfl ⟨hredefined,hgood.define hname hv holder⟩ hredefined.heap.binds
  next => exact .runtime hgood _ _

/-- A class is defined under its name in the current scope. -/
theorem Met.defineClass {name : Token} {parent : Option ClassId} {methods : List FunctionDecl}
    (h : Met runs r (.classDefinition name parent methods) m) :
    Finishes runs r (· = name.lexeme) (Eval.defineClass name parent methods) m fun _ h =>
      m.scope.index < m.heap.scopes.size → h.Binds m.scope name.lexeme := by
  obtain ⟨c,hat,hsettled,p,hp,superclass,hpart,hparent⟩ := h.typed
  have hname : name.IsName := hpart.proper.1
  have hdeclares := hpart.declares name.lexeme rfl
  have hdefine := define_finishes (r := r) hat.good hname (v := .nil) trivial
  refine hdefine.bind (Q := fun _ => False) (fun _ m₁ heq hdefined hbound => ?_) (fun _ h => h)
    fun _ => False.elim
  obtain rfl := (EStateM.Result.ok.inj heq).2
  have hat₁ := hat.define hsettled hname hdeclares hdefined.later hdefined.good hbound
  have hclosure := hat₁.methodScope (r := r) hparent fun k hk => by
    subst hk
    exact ⟨r,h.member,_,m,h.visits,.superclass,by simp⟩
  have hmethods (d : FunctionDecl) (hd : d ∈ methods) :=
    And.intro (hat.coherent.receiving hsettled hname hdeclares superclass hd) (hpart.methods_in hd)
  refine hclosure.bind_same fun closure m₂ _ hentered hchain => ?_
  have hadded := addMethods_finishes (r := r) hp hentered.good hchain hmethods
  refine hadded.bind_same fun table m₃ _ hfinished hall => ?_
  have hgrown := hentered.later.heap.trans hfinished.later.heap
  let k : Class := ⟨name.lexeme,parent,.ofList table⟩
  have hclass : Finished runs (fun _ => False) m₃ { m₃ with heap := (m₃.heap.addClass k).2 } :=
    ⟨.of_heap (.of_eq rfl rfl) rfl rfl rfl,hfinished.good.addClass fun other f hf =>
      hall other f (Bindings.mem_of_find?_ofList hf)⟩
  have hvalid : Valid runs (m₃.heap.addClass k).2 (.class ⟨m₃.heap.classes.size⟩) := trivial
  have hbound₃ (hlt : m.scope.index < m.heap.scopes.size) :=
    (hgrown.trans hclass.later.heap).binds _ _ (hbound hlt)
  have hrest := changeHolder_finishes (r := r) hclass.good hname hvalid
  refine .after_same ?_ hclass (hrest.mono (fun _ h => h) fun _ _ _ hkept hlt => hkept _ _ (hbound₃ hlt))
  rfl

end Lox

import Lox.Proofs.Alike.Machine

/-! Variables, properties, calls and class definitions on machines that correspond. -/
namespace Lox

/-- Sequences of statements that are alike do the same. -/
def Correspondence.Executes (c : Correspondence) (execute : List Stmt → Eval Flow) : Prop :=
  ∀ {ss ss' : List Stmt} {m m' : Machine}, Stmt.ListAlike c.like ss ss' → m.Alike c m' →
    Eval.Mirrors c (Flow.Alike c) (execute ss) m (execute ss') m'

/-- Expressions that are alike do the same. -/
def Correspondence.Evaluates (c : Correspondence) (evaluate : Expr → Eval Value) : Prop :=
  ∀ {e e' : Expr} {m m' : Machine}, e.Alike c.like e' → m.Alike c m' →
    Eval.Mirrors c c.Stands (evaluate e) m (evaluate e') m'

namespace Eval.Mirrors

variable {c : Correspondence} {m m' : Machine} {i i' : ExprId} {t t' u u' : Token} {v : Value}

/-! ### Variables -/

/-- What the first computation searches for and does not find, the second one does not find either, unless
something is left over. -/
theorem unfound {α β : Type} {R : Heap → α → β → Prop} {fault : RuntimeFault} {y : Eval β} (hm : m.Alike c m')
    (ht : c.like.token t t') (hy : c.Complete m.heap → y m' = (Eval.runtime fault t' : Eval β) m') :
    Mirrors c R (Eval.runtime fault t) m y m' :=
  of_error rfl hy (.error (.runtime ht)) (hm.toComparable.note _ _) ⟨rfl,rfl,rfl⟩

/-- Work that goes on with some part of what is found in a scope outward. -/
theorem bindLookupAt {α β γ δ : Type} {S : Heap → γ → δ → Prop} {name : String} {p : ScopeId × Value → α}
    {q : ScopeId × Value → β} {f : α → Eval γ} {g : β → Eval δ} (hm : m.Alike c m') (hname : c.Visible name)
    (k : ScopeId) (distance : Nat)
    (h : ∀ j w, c.Knows m.heap w → Mirrors c S (f (p (j,w))) m (g (q (c.scope j,c.value w))) m') :
    Mirrors c S (Eval.checked ((m.heap.lookupAt k distance name).map p) >>= f) m
      (Eval.checked ((m'.heap.lookupAt (c.scope k) distance name).map q) >>= g) m' := by
  cases hlookup : m.heap.lookupAt k distance name with
  | ok found =>
    obtain ⟨j,w⟩ := found
    obtain ⟨hlookup',hknows⟩ := hm.heap.lookupAt_ok hname hlookup
    rw [hlookup']
    exact h j w hknows
  | error fault =>
    refine of_error rfl (fun hcomplete => ?_) (.error .internal)
      (hm.toComparable.note _ (.errorCreated (.internal fault))) ⟨rfl,rfl,rfl⟩
    rw [hm.heap.lookupAt_error hname hcomplete hlookup]
    rfl

theorem bindGetAt {γ δ : Type} {S : Heap → γ → δ → Prop} {name : String} {f : Value → Eval γ}
    {g : Value → Eval δ} (hm : m.Alike c m') (hname : c.Visible name) (k : ScopeId) (distance : Nat)
    (h : ∀ w, c.Knows m.heap w → Mirrors c S (f w) m (g (c.value w)) m') :
    Mirrors c S (Eval.checked (m.heap.getAt k distance name) >>= f) m
      (Eval.checked (m'.heap.getAt (c.scope k) distance name) >>= g) m' :=
  bindLookupAt (p := Prod.snd) (q := Prod.snd) hm hname k distance fun _ w hw => h w hw

theorem getAt {name : String} (hm : m.Alike c m') (hname : c.Visible name) (k : ScopeId) (distance : Nat) :
    Mirrors c c.Stands (Eval.checked (m.heap.getAt k distance name)) m
      (Eval.checked (m'.heap.getAt (c.scope k) distance name)) m' := by
  have hbind := bindGetAt (f := Pure.pure) (g := Pure.pure) hm hname k distance fun w hw =>
    pure (R := c.Stands) hm ⟨rfl,hw⟩
  rwa [bind_pure,bind_pure] at hbind

theorem holderAt {name : String} (hm : m.Alike c m') (hname : c.Visible name) (k : ScopeId)
    (distance : Nat) :
    Mirrors c (fun _ j j' => j' = c.scope j) (Eval.checked (m.heap.holderAt k distance name)) m
      (Eval.checked (m'.heap.holderAt (c.scope k) distance name)) m' := by
  have hbind := bindLookupAt (p := Prod.fst) (q := Prod.fst) (f := Pure.pure) (g := Pure.pure) hm hname k
    distance fun j w _ => pure (R := fun _ j j' => j' = c.scope j) hm rfl
  rwa [bind_pure,bind_pure] at hbind

theorem lookUp (hm : m.Alike c m') (hi : c.like.id i i') (ht : c.like.token t t') :
    Mirrors c c.Stands (lookUp i t) m (lookUp i' t') m' := by
  have hname := c.visible_token ht
  refine get ?_
  rw [hm.distances i i' hi,hm.scope,c.like.lexeme ht]
  cases m.distances.find? i with
  | some distance => exact getAt hm hname _ distance
  | none =>
    cases hlookup : m.heap.lookup? t.lexeme m.heap.scopes.size Heap.globals with
    | some found =>
      obtain ⟨hlookup',hknows⟩ := hm.heap.lookup?_some hname hlookup
      simp only [Heap.get?,hlookup,hlookup',Option.map_some]
      exact pure hm ⟨rfl,hknows⟩
    | none =>
      simp only [Heap.get?,hlookup,Option.map_none]
      refine unfound hm ht fun hcomplete => ?_
      rw [hm.heap.lookup?_none hname hcomplete hlookup]
      rfl

theorem target (hm : m.Alike c m') (hi : c.like.id i i') (ht : c.like.token t t') :
    Mirrors c (fun _ j j' => j' = c.scope j) (target i t) m (target i' t') m' := by
  have hname := c.visible_token ht
  refine get ?_
  rw [hm.distances i i' hi,hm.scope,c.like.lexeme ht]
  cases m.distances.find? i with
  | some distance => exact holderAt hm hname _ distance
  | none =>
    cases hlookup : m.heap.lookup? t.lexeme m.heap.scopes.size Heap.globals with
    | some found =>
      obtain ⟨hlookup',-⟩ := hm.heap.lookup?_some hname hlookup
      simp only [Heap.holder?,hlookup,hlookup',Option.map_some]
      exact pure hm rfl
    | none =>
      simp only [Heap.holder?,hlookup,Option.map_none]
      refine unfound hm ht fun hcomplete => ?_
      rw [hm.heap.lookup?_none hname hcomplete hlookup]
      rfl

theorem assign (hm : m.Alike c m') (hi : c.like.id i i') (ht : c.like.token t t')
    (hv : c.Knows m.heap v) :
    Mirrors c (fun _ _ _ => True) (assign i t v) m (assign i' t' (c.value v)) m' := by
  refine (target hm hi ht).bind fun j _ m₁ m₁' hm₁ hresumes hj => ?_
  obtain rfl := hj
  rw [c.like.lexeme ht]
  have hheap := hm₁.heap.define j t.lexeme (hv.mono hresumes.heap)
  have hgrows := Heap.Grows.define m₁.heap j t.lexeme v
  exact of_ok rfl rfl (hm₁.reheap hheap hgrows) (.reheap hgrows) trivial

/-! ### Properties -/

theorem bindMethod (hm : m.Alike c m') (f : FunctionId) {k : InstanceId}
    (hk : k.index < m.heap.instances.size) :
    Mirrors c c.Stands (Eval.allocate (·.bind f k) >>= fun g => Pure.pure (Value.function g)) m
      (Eval.allocate (·.bind (c.function f) (c.instance k)) >>= fun g => Pure.pure (Value.function g)) m' := by
  refine allocate hm (hm.heap.bind hk f) (.bind _ f k) fun m₁ m₁' hm₁ _ _ => pure hm₁ ⟨?_,trivial⟩
  exact congrArg Value.function hm.heap.new_function

theorem getProperty (hm : m.Alike c m') (hv : c.Knows m.heap v) (ht : c.like.token t t') :
    Mirrors c c.Stands (getProperty v t) m (getProperty (c.value v) t') m' := by
  cases v with
  | «instance» k =>
    refine heap ?_
    rw [hm.heap.property? hv,c.like.lexeme ht]
    cases hproperty : m.heap.property? k t.lexeme with
    | none => exact runtime hm _ ht
    | some p =>
      cases p with
      | field w => exact pure hm ⟨rfl,hm.heap.property?_field hv hproperty⟩
      | method f => exact bindMethod hm f hv
  | _ => exact runtime hm _ ht

theorem superMethod (hm : m.Alike c m') (hi : c.like.id i i') (hu : c.like.token u u') :
    Mirrors c c.Stands (superMethod i t u) m (superMethod i' t' u') m' := by
  refine get ?_
  rw [hm.distances i i' hi,hm.scope]
  cases m.distances.find? i with
  | none => exact internal hm _
  | some distance =>
    refine bindGetAt hm (c.visible_of_ne (by decide)) _ _ fun v hv => ?_
    cases v with
    | «class» parent =>
      cases distance with
      | zero => exact internal hm _
      | succ inner =>
        refine bindGetAt hm (c.visible_of_ne (by decide)) _ _ fun w hw => ?_
        cases w with
        | «instance» receiver =>
          simp only [Correspondence.value]
          rw [hm.heap.findMethod? hv,c.like.lexeme hu]
          cases m.heap.findMethod? parent u.lexeme with
          | none => exact runtime hm _ hu
          | some f =>
            refine note hm fun m₁ m₁' hm₁ _ hheap _ => bindMethod hm₁ f ?_
            rw [hheap]
            exact hw
        | _ => exact internal hm _
    | _ => exact internal hm _

/-! ### Calls -/

variable {execute : List Stmt → Eval Flow} {f f' : Function} {flow flow' : Flow} {vs : List Value}

theorem callResult (hm : m.Alike c m') (hf : f.Alike c f') (hflow : flow.Alike c m.heap flow') :
    Mirrors c c.Stands (callResult f flow) m (callResult f' flow') m' := by
  simp only [Eval.callResult,hf.isInitializer,hf.closure]
  split
  · exact heap (getAt hm (c.visible_of_ne (by decide)) _ _)
  · cases hflow with
    | normal => exact pure hm ⟨rfl,trivial⟩
    | returned hv => exact pure hm hv

theorem apply (hexecute : c.Executes execute) (hm : m.Alike c m') (f : FunctionId)
    (hvs : ∀ v ∈ vs, c.Knows m.heap v) :
    Mirrors c c.Stands (apply execute f vs) m (apply execute (c.function f) (vs.map c.value)) m' := by
  have hf := hm.heap.function f
  refine heap (note hm fun m₁ m₁' hm₁ _ hheap _ => ?_)
  simp only [hf.declaration.names,hf.closure]
  have hbindings := Bindings.Alike.ofList ((m.heap.getFunction f).declaration.parameters.map Token.lexeme)
    (hheap ▸ hvs)
  refine bind (inNew hm₁ hbindings fun m₂ m₂' hm₂ _ => hexecute hf.declaration.body hm₂) ?_
  exact fun flow flow' m₂ m₂' hm₂ _ hflow => callResult hm₂ hf hflow

theorem construct (hexecute : c.Executes execute) (hm : m.Alike c m') {k : ClassId}
    (hk : k.index < m.heap.classes.size) (hvs : ∀ v ∈ vs, c.Knows m.heap v) :
    Mirrors c c.Stands (construct execute k vs) m (construct execute (c.class k) (vs.map c.value)) m' := by
  refine heap (note hm fun m₁ m₁' hm₁ _ hheap _ => ?_)
  rw [← hheap] at hk hvs
  refine allocate hm₁ (hm₁.heap.addInstance ⟨rfl,hk,.empty⟩) (.addInstance _ _) ?_
  intro m₂ m₂' hm₂ hresumes hheap₂
  have hnew : (m₁'.heap.addInstance ⟨c.class k,∅⟩).1 = c.instance (m₁.heap.addInstance ⟨k,∅⟩).1 :=
    hm₁.heap.new_instance
  have hi : (m₁.heap.addInstance ⟨k,∅⟩).1.index < m₂.heap.instances.size := by
    rw [hheap₂]
    simp [Heap.addInstance]
  refine heap ?_
  rw [hnew,hm₂.heap.findMethod? (Nat.lt_of_lt_of_le hk hresumes.heap.classes)]
  cases m₂.heap.findMethod? k "init" with
  | none => exact pure hm₂ ⟨rfl,hi⟩
  | some f =>
    refine allocate hm₂ (hm₂.heap.bind hi f) (.bind _ f _) fun m₃ m₃' hm₃ hresumes₃ _ => ?_
    have hbound : (m₂'.heap.bind (c.function f) (c.instance (m₁.heap.addInstance ⟨k,∅⟩).1)).1 =
        c.function (m₂.heap.bind f (m₁.heap.addInstance ⟨k,∅⟩).1).1 := hm₂.heap.new_function
    rw [hbound]
    have hgrows := hresumes.heap.trans hresumes₃.heap
    refine (apply hexecute hm₃ _ fun v hv => (hvs v hv).mono hgrows).bind ?_
    exact fun _ _ m₄ m₄' hm₄ hresumes₄ _ =>
      pure hm₄ ⟨rfl,Nat.lt_of_lt_of_le hi (hresumes₃.trans hresumes₄).heap.instances⟩

theorem invoke (hexecute : c.Executes execute) (hm : m.Alike c m') (hv : c.Knows m.heap v)
    (ht : c.like.token t t') (hvs : ∀ v ∈ vs, c.Knows m.heap v) :
    Mirrors c c.Stands (invoke execute v t vs) m (invoke execute (c.value v) t' (vs.map c.value)) m' := by
  cases v with
  | native f =>
    cases f
    refine note hm fun m₁ m₁' hm₁ _ _ _ => (readClock hm₁ hv).bind fun n _ m₂ m₂' hm₂ _ hn => ?_
    exact hn ▸ pure hm₂ ⟨rfl,trivial⟩
  | function f => exact apply hexecute hm f hvs
  | «class» k => exact construct hexecute hm hv hvs
  | _ => exact runtime hm _ ht

theorem call (hexecute : c.Executes execute) (hm : m.Alike c m') (hv : c.Knows m.heap v)
    (ht : c.like.token t t') (hvs : ∀ v ∈ vs, c.Knows m.heap v) :
    Mirrors c c.Stands (call execute v t vs) m (call execute (c.value v) t' (vs.map c.value)) m' := by
  refine get ?_
  rw [hm.heap.callable? hv,List.length_map,hm.depth]
  cases m.heap.callable? v with
  | none => exact runtime hm _ ht
  | some found =>
    dsimp only
    split
    · exact runtime hm _ ht
    · split
      · exact note hm fun m₁ m₁' hm₁ _ _ _ => of_error rfl (fun _ => rfl) (.error (.stackOverflow ht))
          hm₁.toComparable (.refl m₁)
      · refine nested hm fun m₁ m₁' hm₁ hheap => invoke hexecute hm₁ ?_ ht ?_
        · exact hheap ▸ hv
        · exact hheap ▸ hvs

/-! ### Classes -/

variable {evaluate : Expr → Eval Value} {e e' : Option Expr}

theorem superclassOf (hevaluate : c.Evaluates evaluate) (hm : m.Alike c m') (ht : c.like.token t t')
    (he : Expr.OptionAlike c.like e e') :
    Mirrors c (fun h k k' => k' = k.map c.class ∧ ∀ p, k = some p → p.index < h.classes.size)
      (superclassOf evaluate t e) m (superclassOf evaluate t' e') m' := by
  cases he with
  | none => exact pure hm ⟨rfl,by simp⟩
  | some he =>
    refine (hevaluate he hm).bind fun v _ m₁ m₁' hm₁ _ hv => ?_
    obtain ⟨rfl,hknows⟩ := hv
    cases v with
    | «class» k => exact pure hm₁ ⟨rfl,fun p hp => Option.some.inj hp ▸ hknows⟩
    | _ =>
      cases he with
      | «variable» _ hname => exact runtime hm₁ _ hname
      | _ => exact runtime hm₁ _ ht

theorem addMethods {ds ds' : List FunctionDecl} (hds : Stmt.FunctionsAlike c.like ds ds')
    (hm : m.Alike c m') (closure : ScopeId) :
    Mirrors c (fun _ fs fs' => fs' = fs.map fun (name,f) => (name,c.function f))
      (addMethods closure ds) m (addMethods (c.scope closure) ds') m' := by
  induction ds generalizing ds' m m' with
  | nil =>
    cases hds
    exact pure hm rfl
  | cons d ds ih =>
    cases hds with
    | cons hd hds =>
      rw [Eval.addMethods,Eval.addMethods,c.like.lexeme hd.name]
      refine allocate hm (hm.heap.addFunction ⟨hd,rfl,rfl⟩) (.addFunction _ _) fun m₁ m₁' hm₁ _ _ => ?_
      refine (ih hds hm₁).bind fun fs fs' m₂ m₂' hm₂ _ hfs => pure hm₂ ?_
      rw [hfs]
      exact congrArg (fun f => (_,f) :: _) hm.heap.new_function

theorem methodScope {k : Option ClassId} (hm : m.Alike c m')
    (hk : ∀ p, k = some p → p.index < m.heap.classes.size) :
    Mirrors c (fun _ j j' => j' = c.scope j) (methodScope k) m (methodScope (k.map c.class)) m' := by
  refine get ?_
  cases k with
  | none => exact pure hm hm.scope
  | some p =>
    have hsuper : ((∅ : Bindings Value).insert "super" (.class p)).Alike c m.heap
        ((∅ : Bindings Value).insert "super" (.class (c.class p))) :=
      Bindings.Alike.empty.insert "super" (v := .class p) (hk p rfl)
    have hscope := hm.heap.addScope hsuper (some m.scope)
    rw [hm.scope]
    have hgrows := Heap.Grows.addScope m.heap ⟨(∅ : Bindings Value).insert "super" (.class p),some m.scope⟩
    exact of_ok rfl rfl (hm.reheap hscope hgrows) (.reheap hgrows) hm.heap.new_scope

/-- A name that is bound in the current scope is found there. -/
theorem changeHolder {name : String} (hm : m.Alike c m') (hname : c.Visible name) (ht : t.lexeme = name)
    (ht' : t'.lexeme = name) (hbinds : m.heap.Binds m.scope name) (hv : c.Knows m.heap v) :
    Mirrors c (fun _ _ _ => True)
      (match m.heap.holder? m.scope t.lexeme with
        | some holder => changeHeap (·.define holder t.lexeme v)
        | none => Eval.runtime (.undefinedVariable t.lexeme) t) m
      (match m'.heap.holder? m'.scope t'.lexeme with
        | some holder => changeHeap (·.define holder t'.lexeme (c.value v))
        | none => Eval.runtime (.undefinedVariable t'.lexeme) t') m' := by
  obtain ⟨old,hold⟩ := Option.isSome_iff_exists.mp hbinds
  have hold' := ((hm.heap.scope m.scope).bound name old hname hold).1
  rw [← hm.scope] at hold'
  have hroot' : 0 < m'.heap.scopes.size := by
    rw [hm.heap.scopes]
    exact Nat.add_pos_left hm.heap.root _
  rw [ht,ht',Heap.holder?_here hm.heap.root hold,Heap.holder?_here hroot' hold',hm.scope]
  have hgrows := Heap.Grows.define m.heap m.scope name v
  exact of_ok rfl rfl (hm.reheap (hm.heap.define m.scope name hv) hgrows) (.reheap hgrows) trivial

theorem defineClass {k : Option ClassId} {ds ds' : List FunctionDecl} (hm : m.Alike c m')
    (ht : c.like.token t t') (hk : ∀ p, k = some p → p.index < m.heap.classes.size)
    (hds : Stmt.FunctionsAlike c.like ds ds') :
    Mirrors c (fun _ _ _ => True) (defineClass t k ds) m (defineClass t' (k.map c.class) ds') m' := by
  have hlexeme := c.like.lexeme ht
  refine define (v := .nil) hm hlexeme trivial fun m₁ m₁' hm₁ hresumes hheap _ => ?_
  have hbinds : m₁.heap.Binds m₁.scope t.lexeme := by
    rw [hheap,hresumes.scope,Heap.binds_define]
    exact .inl ⟨rfl,hm.exists_scope,rfl⟩
  have hk₁ (p : ClassId) (hp : k = some p) : p.index < m₁.heap.classes.size :=
    Nat.lt_of_lt_of_le (hk p hp) hresumes.heap.classes
  refine (methodScope hm₁ hk₁).bind fun closure _ m₂ m₂' hm₂ hresumes₂ hclosure => ?_
  obtain rfl := hclosure
  refine (addMethods hds hm₂ closure).bind fun fs _ m₃ m₃' hm₃ hresumes₃ hfs => ?_
  obtain rfl := hfs
  have hresumes' := hresumes₂.trans hresumes₃
  have hclass : Class.Alike c ⟨t.lexeme,k,.ofList fs⟩
      ⟨t'.lexeme,k.map c.class,.ofList (fs.map fun (name,f) => (name,c.function f))⟩ :=
    ⟨hlexeme,rfl,Bindings.find?_ofList_map c.function fs⟩
  have hparent (p : ClassId) (hp : k = some p) : p.index < m₃.heap.classes.size :=
    Nat.lt_of_lt_of_le (hk₁ p hp) hresumes'.heap.classes
  refine allocate hm₃ (hm₃.heap.addClass hclass hparent) (.addClass _ _) fun m₄ m₄' hm₄ hresumes₄ hheap₄ => ?_
  have hnew : (m₃'.heap.addClass
      ⟨t'.lexeme,k.map c.class,.ofList (fs.map fun (name,f) => (name,c.function f))⟩).1 =
        c.class (m₃.heap.addClass ⟨t.lexeme,k,.ofList fs⟩).1 := hm₃.heap.new_class
  have hknows : c.Knows m₄.heap (.class (m₃.heap.addClass ⟨t.lexeme,k,.ofList fs⟩).1) := by
    rw [hheap₄]
    simp [Correspondence.Knows,Heap.addClass]
  rw [hnew]
  have hresumes'' := hresumes'.trans hresumes₄
  refine get (changeHolder hm₄ (c.visible_token ht) rfl hlexeme ?_ hknows)
  rw [hresumes''.scope]
  exact hresumes''.heap.binds _ _ hbinds

end Eval.Mirrors

end Lox

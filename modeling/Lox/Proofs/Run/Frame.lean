import Lox.Proofs.Run.Moment
import Lox.Proofs.Run.Variable

/-! Where names go. A statement binds new names in the scope that it runs in, an expression in none that was there
before. Blocks and calls run in scopes that they have made, so that they leave no names behind either. -/
namespace Lox

open Eval

/-- The second heap comes from the first by work that binds new names in one of its scopes at most. Scopes stay
where they are, functions and classes stay as they are, and instances stay of their classes. -/
structure Heap.Framed (site : Option ScopeId) (h h' : Heap) : Prop extends h.Grows h' where
  names : ∀ j, j.index < h.scopes.size → site ≠ some j → ∀ name, h'.Binds j name → h.Binds j name
  getClass : ∀ c, c.index < h.classes.size → h'.getClass c = h.getClass c
  ofClass : ∀ i, i.index < h.instances.size → (h'.getInstance i).ofClass = (h.getInstance i).ofClass

namespace Heap.Framed

variable {site site' : Option ScopeId} {h h₁ h₂ : Heap}

theorem refl (h : Heap) : h.Framed site h :=
  ⟨.refl h,fun _ _ _ _ hj => hj,fun _ _ => rfl,fun _ _ => rfl⟩

/-- What comes second may bind new names in scopes that have been made by what comes first. -/
theorem trans_new (a : h.Framed site h₁) (b : h₁.Framed site' h₂)
    (hsite : ∀ j, site' = some j → site = some j ∨ h.scopes.size ≤ j.index) : h.Framed site h₂ where
  toGrows := a.toGrows.trans b.toGrows
  names j hj hne name hname := by
    have hne' : site' ≠ some j := fun heq => (hsite j heq).elim hne (Nat.not_le_of_lt hj)
    exact a.names j hj hne name (b.names j (Nat.lt_of_lt_of_le hj a.scopes) hne' name hname)
  getClass c hc := (b.getClass c (Nat.lt_of_lt_of_le hc a.classes)).trans (a.getClass c hc)
  ofClass i hi := (b.ofClass i (Nat.lt_of_lt_of_le hi a.instances)).trans (a.ofClass i hi)

theorem trans (a : h.Framed site h₁) (b : h₁.Framed site h₂) : h.Framed site h₂ :=
  a.trans_new b fun _ => .inl

/-- Elsewhere the names are those of before. -/
theorem binds_iff (a : h.Framed site h₁) {j : ScopeId} (hj : j.index < h.scopes.size) (hne : site ≠ some j)
    (name : String) : h₁.Binds j name ↔ h.Binds j name :=
  ⟨a.names j hj hne name,a.binds j name⟩

theorem define (h : Heap) (i : ScopeId) (name : String) (v : Value) : h.Framed (some i) (h.define i name v) where
  toGrows := .define h i name v
  names j _ hne other hother := by
    rcases (binds_define h i j name other v).mp hother with ⟨rfl,-⟩ | hbinds
    · exact absurd rfl hne
    · exact hbinds
  getClass _ _ := rfl
  ofClass _ _ := rfl

/-- A binding that is there gets a new value. -/
theorem redefine {i : ScopeId} {name : String} (hbinds : h.Binds i name) (v : Value) :
    h.Framed site (h.define i name v) where
  toGrows := .define h i name v
  names j _ _ other hother := by
    rcases (binds_define h i j name other v).mp hother with ⟨rfl,-,rfl⟩ | hbinds'
    · exact hbinds
    · exact hbinds'
  getClass _ _ := rfl
  ofClass _ _ := rfl

theorem addScope (h : Heap) (s : Scope) : h.Framed site (h.addScope s).2 where
  toGrows := .addScope h s
  names j hj _ name hname := by rwa [Binds,getScope_addScope,if_neg (Nat.ne_of_lt hj)] at hname
  getClass _ _ := rfl
  ofClass _ _ := rfl

theorem addFunction (h : Heap) (f : Function) : h.Framed site (h.addFunction f).2 :=
  ⟨.addFunction h f,fun _ _ _ _ hj => hj,fun _ _ => rfl,fun _ _ => rfl⟩

theorem addClass (h : Heap) (k : Class) : h.Framed site (h.addClass k).2 where
  toGrows := .addClass h k
  names _ _ _ _ hj := hj
  getClass c hc := by rw [getClass_addClass,if_neg (Nat.ne_of_lt hc)]
  ofClass _ _ := rfl

theorem addInstance (h : Heap) (o : Instance) : h.Framed site (h.addInstance o).2 where
  toGrows := .addInstance h o
  names _ _ _ _ hj := hj
  getClass _ _ := rfl
  ofClass i hi := by rw [getInstance_addInstance,if_neg (Nat.ne_of_lt hi)]

theorem setField (h : Heap) (i : InstanceId) (name : String) (v : Value) :
    h.Framed site (h.setField i name v) where
  toGrows := .setField h i name v
  names _ _ _ _ hj := hj
  getClass _ _ := rfl
  ofClass j hj := by
    simp only [getInstance,Heap.setField,Array.getElem?_modify]
    split
    next => simp [hj]
    next => rfl

theorem bind (h : Heap) (f : FunctionId) (i : InstanceId) : h.Framed site (h.bind f i).2 :=
  (addScope h _).trans (addFunction _ _)

end Heap.Framed

/-- However it ends, the computation has come back to its scope, and new names are bound at most in the one that
belongs to this scope. -/
structure Eval.Frames {α : Type} (site : ScopeId → Option ScopeId) (x : Eval α) : Prop where
  restores : x.Restores
  framed : ∀ m : Machine, m.heap.Framed (site m.scope) (x.after m).heap

namespace Eval.Frames

variable {α β : Type} {site : ScopeId → Option ScopeId} {x : Eval α} {f : α → Eval β}

/-! ### Elementary computations -/

/-- Nothing happens to the heap. -/
theorem idle (hx : x.Restores) (hheap : ∀ m, (x.after m).heap = m.heap) : x.Frames site :=
  ⟨hx,fun m => by rw [hheap]; exact .refl _⟩

theorem pure (a : α) : (pure a : Eval α).Frames site := idle (.pure a) fun _ => rfl

theorem get : (get : Eval Machine).Frames site := idle .get fun _ => rfl

theorem bind (hx : x.Frames site) (hf : ∀ a, (f a).Frames site) : (x >>= f).Frames site := by
  refine ⟨.bind hx.restores fun a => (hf a).restores,fun m => ?_⟩
  have hscope := (hx.restores m).scope
  have hfirst := hx.framed m
  simp only [Eval.after,Bind.bind,EStateM.bind] at hscope hfirst ⊢
  split at hfirst
  next a m₁ heq =>
    simp only [heq] at hscope ⊢
    exact hfirst.trans (hscope ▸ (hf a).framed m₁)
  next halt m₁ heq =>
    simp only [heq]
    exact hfirst

theorem note (e : Event) : (note e).Frames site := idle (.note e) fun _ => rfl

theorem raise (e : Error) : (raise e : Eval α).Frames site := idle (.raise e) fun _ => rfl

theorem stop (e : Error) : (stop e : Eval α).Frames site := idle (.stop e) fun _ => rfl

theorem exhausted : (exhausted : Eval α).Frames site := idle .exhausted fun _ => rfl

theorem allocate {add : Heap → α × Heap} (hadd : ∀ site h, Heap.Framed site h (add h).2) :
    (allocate add).Frames site :=
  ⟨.allocate fun h => (hadd none h).toGrows,fun m => hadd _ m.heap⟩

theorem define (name : String) (v : Value) : (define name v).Frames some :=
  ⟨.define name v,fun m => .define m.heap m.scope name v⟩

theorem setField (i : InstanceId) (name : String) (v : Value) :
    (changeHeap (·.setField i name v)).Frames site :=
  ⟨.changeHeap fun h => .setField h i name v,fun m => .setField m.heap i name v⟩

/-- What is bound in the new scope is no new name for the scopes that were there before. -/
theorem inNew (hx : x.Frames some) (s : Scope) : (inNew s x).Frames site := by
  refine ⟨.inNew hx.restores s,fun m => ?_⟩
  have hbody := hx.framed { m with heap := (m.heap.addScope s).2, scope := ⟨m.heap.scopes.size⟩ }
  have hafter : (Eval.inNew s x).after m =
      (inScope ⟨m.heap.scopes.size⟩ x).after { m with heap := (m.heap.addScope s).2 } := rfl
  rw [hafter,after_inScope]
  refine (Heap.Framed.addScope m.heap s).trans_new hbody fun j hj => .inr ?_
  obtain rfl := Option.some.inj hj
  exact Nat.le_refl _

theorem nested (hx : x.Frames site) : (nested x).Frames site := by
  refine ⟨.nested hx.restores,fun m => ?_⟩
  rw [after_nested]
  exact hx.framed m.deeper

theorem print (text : String) : (print text).Frames site := by
  refine idle (.print text) fun m => ?_
  rw [after_print]

theorem readClock : readClock.Frames site := idle .readClock fun _ => rfl

theorem assign (id : ExprId) (name : Token) (v : Value) : (assign id name v).Frames site := by
  refine ⟨.assign id name v,fun m => ?_⟩
  rcases target_cases id name m with ⟨j,htarget,hbinds⟩ | ⟨e,htarget⟩
  · rw [Eval.after,assign_ok htarget]
    exact .redefine hbinds v
  · rw [Eval.after,assign_raise htarget]
    exact .refl _

/-- The class is put where its name is bound already. -/
theorem bindClass (name : Token) (c : ClassId) : Eval.Frames site (do
    let m ← MonadState.get
    match m.heap.holder? m.scope name.lexeme with
    | some holder => Eval.changeHeap (·.define holder name.lexeme (.class c))
    | none => Eval.runtime (.undefinedVariable name.lexeme) name) where
  restores := by
    refine .bind .get fun m => ?_
    cases m.heap.holder? m.scope name.lexeme with
    | none => exact .raise _
    | some holder => exact .changeHeap fun h => .define h holder name.lexeme _
  framed m := by
    show m.heap.Framed _ (Eval.after (match m.heap.holder? m.scope name.lexeme with
      | some holder => Eval.changeHeap (·.define holder name.lexeme (.class c))
      | none => Eval.runtime (.undefinedVariable name.lexeme) name) m).heap
    cases hholder : m.heap.holder? m.scope name.lexeme with
    | none => exact .refl _
    | some holder => exact .redefine (Heap.holder?_binds hholder) _

/-! ### Computations that are put together -/

theorem composes (site : ScopeId → Option ScopeId) : Composes fun x => x.Frames site where
  pure := pure
  bind := bind
  get hf _ := bind get hf
  note := note
  raise := raise
  bindMethod f i := allocate fun _ h => .bind h f i

theorem governs : Governs (fun x => ∀ site, x.Frames site) fun x => x.Frames some where
  toComposes := .all composes
  statement := composes some
  weaken hx := hx some
  stop e _ := stop e
  exhausted _ := exhausted
  print text _ := print text
  readClock _ := readClock
  inNew hx s _ := inNew hx s
  nested hx site := nested (hx site)
  addScope s _ := allocate fun _ h => .addScope h s
  addFunction f _ := allocate fun _ h => .addFunction h f
  addClass k _ := allocate fun _ h => .addClass h k
  addInstance o _ := allocate fun _ h => .addInstance h o
  setField i name v _ := setField i name v
  assign id name v _ := assign id name v
  define := define
  bindClass name c _ := bindClass name c

theorem evaluateEach {evaluate : Expr → Eval Value} (hevaluate : ∀ e, (evaluate e).Frames site) (es : List Expr) :
    (evaluateEach evaluate es).Frames site := (composes site).evaluateEach hevaluate es

section

variable {execute : List Stmt → Eval Flow} (hexecute : ∀ ss, (execute ss).Frames some)
include hexecute

theorem apply (f : FunctionId) (vs : List Value) : (apply execute f vs).Frames site :=
  governs.apply hexecute f vs site

theorem construct (c : ClassId) (vs : List Value) : (construct execute c vs).Frames site :=
  governs.construct hexecute c vs site

theorem call (callee : Value) (paren : Token) (vs : List Value) : (call execute callee paren vs).Frames site :=
  governs.call hexecute callee paren vs site

end

end Eval.Frames

/-! ### Expressions and statements -/

/-- Expressions bind no new names in the scopes that are there, statements only in the scope that they run in,
with this budget. -/
structure Framing (n : Nat) : Prop where
  expr : ∀ site e, (evaluate n e).Frames site
  stmt : ∀ s, (execute n s).Frames some

theorem framing (n : Nat) : Framing n := ⟨fun site e => (Frames.governs.all n).1 e site,(Frames.governs.all n).2⟩

theorem Framing.stmts {n : Nat} (h : Framing n) (ss : List Stmt) : (executeEach (execute n) ss).Frames some :=
  (Frames.composes some).executeEach h.stmt ss

theorem Eval.Frames.block (n : Nat) (site : ScopeId → Option ScopeId) (body : List Stmt) :
    (execute n (.block body)).Frames site := by
  cases n with
  | zero => exact exhausted
  | succ n => exact bind get fun _ => inNew ((framing n).stmts body) _

/-- A statement that declares no name of its own binds none in the scopes that are there. -/
theorem Eval.Frames.undeclaring (site : ScopeId → Option ScopeId) (n : Nat) :
    ∀ {s : Stmt}, s.Proper → s.declared? = none → (execute n s).Frames site := by
  induction n with
  | zero => exact fun _ _ => exhausted
  | succ n ih =>
    intro s hproper hnone
    have hexpr := (framing n).expr site
    cases s with
    | expression e => exact bind (hexpr e) fun _ => pure _
    | print e =>
      exact bind (hexpr e) fun v => (composes site).heap fun k => bind (print _) fun _ => pure _
    | block body => exact block (n + 1) site body
    | branch c s t =>
      obtain ⟨-,⟨hthen,hplain⟩,helse⟩ := hproper
      refine bind (hexpr c) fun v => ?_
      split
      · exact ih hthen hplain
      · cases t with
        | none => exact pure _
        | some t => exact ih helse.1 helse.2
    | loop c body =>
      obtain ⟨-,hbody,hplain⟩ := hproper
      exact (composes site).whileLoop exhausted (hexpr c) (ih hbody hplain) n
    | «return» keyword value =>
      cases value with
      | none => exact pure _
      | some e => exact bind (hexpr e) fun v => pure _
    | var | function | «class» => cases hnone

/-- What has stayed when some work is done, however it ended: each scope that was there binds the same names
and lies in the same scope, functions and classes are the same, instances are of the same classes, and the
current scope is the one of before. -/
structure Machine.Framed (m m' : Machine) : Prop where
  scopes : m.heap.scopes.size ≤ m'.heap.scopes.size
  names : ∀ j, j.index < m.heap.scopes.size → ∀ name, m'.heap.Binds j name ↔ m.heap.Binds j name
  enclosing : ∀ j, j.index < m.heap.scopes.size →
    (m'.heap.getScope j).enclosing = (m.heap.getScope j).enclosing
  getFunction : ∀ f, f.index < m.heap.functions.size → m'.heap.getFunction f = m.heap.getFunction f
  getClass : ∀ c, c.index < m.heap.classes.size → m'.heap.getClass c = m.heap.getClass c
  ofClass : ∀ i, i.index < m.heap.instances.size →
    (m'.heap.getInstance i).ofClass = (m.heap.getInstance i).ofClass
  scope : m'.scope = m.scope

theorem Eval.Frames.stays {α : Type} {x : Eval α} (hx : x.Frames fun _ => none) (m : Machine) :
    m.Framed (x.after m) where
  scopes := (hx.framed m).scopes
  names j hj := (hx.framed m).binds_iff hj (by simp)
  enclosing := (hx.framed m).enclosing
  getFunction := (hx.framed m).function
  getClass := (hx.framed m).getClass
  ofClass := (hx.framed m).ofClass
  scope := (hx.restores m).scope

/-- Blocks, calls of all kinds and the expressions that calls stand in leave no names in the scopes that were
there before, and only the values of variables and the fields of instances may differ. -/
theorem names_stay (n : Nat) (m : Machine) :
    (∀ body, m.Framed ((execute n (.block body)).after m)) ∧
      (∀ callee paren vs, m.Framed ((call (executeEach (execute n)) callee paren vs).after m)) ∧
      (∀ f vs, m.Framed ((apply (executeEach (execute n)) f vs).after m)) ∧
      (∀ c vs, m.Framed ((construct (executeEach (execute n)) c vs).after m)) ∧
      ∀ e, m.Framed ((evaluate n e).after m) :=
  ⟨fun body => (Frames.block n _ body).stays m,
    fun callee paren vs => (Frames.call (framing n).stmts callee paren vs).stays m,
    fun f vs => (Frames.apply (framing n).stmts f vs).stays m,
    fun c vs => (Frames.construct (framing n).stmts c vs).stays m,
    fun e => ((framing n).expr _ e).stays m⟩

end Lox

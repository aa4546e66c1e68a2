import Lox.Proofs.Run.Sequence

/-! The receiver and the superclass that are known at a point in a method: they are found in the scopes that were
made when the method was bound and when its class was defined. -/
namespace Lox

open Eval

variable {runs : List Run} {r : Run} {w : Work} {m m' : Machine}

/-! ### Scopes as they are made -/

theorem Opens.block_holds {body : List Stmt} (h : Opens w m (.block body)) (name : String) :
    ((w.opened m).getScope ⟨m.heap.scopes.size⟩).bindings.find? name = none := by
  cases h with
  | block =>
    have hnew := Heap.getScope_new m.heap ⟨∅,some m.scope⟩
    exact (congrArg (·.bindings.find? name) hnew).trans (Bindings.find?_emptyCollection name)

/-- The parameters of a function are names. -/
theorem Opens.call_holds {d : FunctionDecl} (h : Opens w m (.call d)) (hmet : Met runs r w m) {name : String}
    (hname : name = "this" ∨ name = "super") :
    ((w.opened m).getScope ⟨m.heap.scopes.size⟩).bindings.find? name = none := by
  cases h with
  | @call _ f vs =>
    obtain ⟨-,⟨-,p,c,context,hf⟩,-⟩ := hmet.typed
    have hproper := (Stmt.functionProper_iff _).mp hf.part.proper
    let bindings : Bindings Value := .ofList (((m.heap.getFunction f).declaration.parameters.map Token.lexeme).zip vs)
    have hnew := Heap.getScope_new m.heap ⟨bindings,some (m.heap.getFunction f).closure⟩
    refine (congrArg (·.bindings.find? name) hnew).trans ?_
    by_contra hfound
    obtain ⟨v,hv⟩ := Option.ne_none_iff_exists'.mp hfound
    obtain ⟨t,ht,hlexeme⟩ := List.mem_map.mp (List.of_mem_zip (Bindings.mem_of_find?_ofList hv)).1
    obtain ⟨hthis,hsuper⟩ := hproper.2.1 t ht
    rcases hname with rfl | rfl
    · exact hthis hlexeme
    · exact hsuper hlexeme

theorem Opens.receiver_holds {d : FunctionDecl} (h : Opens w m (.receiver d)) : ∃ i,
    ((w.opened m).getScope ⟨m.heap.scopes.size⟩).bindings = (∅ : Bindings Value).insert "this" (.instance i) := by
  generalize hsite : Site.receiver d = site at h
  cases h with
  | @receiver f i =>
    have hnew := Heap.getScope_new m.heap
      ⟨(∅ : Bindings Value).insert "this" (.instance i),some (m.heap.getFunction f).closure⟩
    exact ⟨i,congrArg Scope.bindings hnew⟩
  | _ => cases hsite

theorem Opens.superclass_holds {D : Token} {methods : List FunctionDecl} (h : Opens w m (.superclass D methods)) :
    ∃ c, w = .classDefinition D (some c) methods ∧
      ((w.opened m).getScope ⟨m.heap.scopes.size⟩).bindings = (∅ : Bindings Value).insert "super" (.class c) := by
  cases h with
  | @superclass _ c =>
    have hnew := Heap.getScope_new (m.heap.define m.scope D.lexeme .nil)
      ⟨(∅ : Bindings Value).insert "super" (.class c),some m.scope⟩
    rw [Heap.define_size] at hnew
    exact ⟨c,rfl,congrArg Scope.bindings hnew⟩

/-! ### The order in a session -/

/-- Some run does this work. -/
def Done (runs : List Run) (w : Work) (m : Machine) : Prop := ∃ r ∈ runs, Visits r w m

/-- When the session has come further, a scope still holds what it was made with. -/
theorem Course.activation {h₀ h₁ : Heap} (hcourse : Course (Done runs) h₀ h₁) (hdone : Done runs w m)
    {site : Site} {j : ScopeId} (hj : Activation runs site j) (hlt : j.index < m.heap.scopes.size) :
    ∃ r' ∈ runs, ∃ w' m', Visits r' w' m' ∧ Opens w' m' site ∧ j = ⟨m'.heap.scopes.size⟩ ∧
      (w'.opened m').Retains m.heap ∧ ∀ name, name = "this" ∨ name = "super" →
        (m.heap.getScope j).bindings.find? name = ((w'.opened m').getScope j).bindings.find? name := by
  obtain ⟨r',hr',w',m',hvisits,hopens,rfl⟩ := hj
  have hdone' : Done runs w' m' := ⟨r',hr',hvisits⟩
  have hretains : (w'.opened m').Retains m.heap :=
    (hcourse.ordered w' m' w m hdone' hdone).resolve_right fun hretains => Nat.not_le_of_lt hlt hretains.scopes
  refine ⟨r',hr',w',m',hvisits,hopens,rfl,hretains,fun name hname => hretains.holds name hname _ ?_⟩
  cases hopens <;> simp [Work.opened,Machine.inNew,Machine.calling,Machine.binding,Machine.note,Heap.bind,Heap.addScope,
    Heap.addFunction]

/-! ### The receiver and the superclass around a point -/

/-- So many steps outward from a scope lies the receiver of a method, and one step further lies the superclass.
Nothing in between hides them. -/
structure Heap.Seat (h : Heap) (j : ScopeId) (d : Nat) (i : InstanceId) (parent : ClassId) (k : ScopeId) : Prop where
  receiver : ∀ distance, ∃ l, h.outward distance d j = .ok l ∧
    (h.getScope l).bindings.find? "this" = some (.instance i)
  superclass : ∀ distance, h.outward distance (d + 1) j = .ok k
  holds : (h.getScope k).bindings.find? "super" = some (.class parent)
  this : h.Nearest "this" j (.instance i)
  super : h.Nearest "super" j (.class parent)

theorem Heap.Seat.outward {h : Heap} {j k l : ScopeId} {d : Nat} {i : InstanceId} {parent : ClassId}
    (hs : h.Seat k d i parent l) (hk : (h.getScope j).enclosing = some k)
    (hnone : ∀ name, name = "this" ∨ name = "super" → (h.getScope j).bindings.find? name = none) :
    h.Seat j (d + 1) i parent l where
  receiver distance := by
    simp only [Heap.outward,hk]
    exact hs.receiver distance
  superclass distance := by
    rw [Heap.outward]
    simp only [hk]
    exact hs.superclass distance
  holds := hs.holds
  this := .outward (hnone _ (.inl rfl)) hk hs.this
  super := .outward (hnone _ (.inr rfl)) hk hs.super

/-- The subclass `D` is defined in one of the runs: its superclass is evaluated, and that gives a class. -/
def Defined (runs : List Run) (D : Token) (methods : List FunctionDecl) (parent : ClassId) (m' : Machine) : Prop :=
  ∃ r ∈ runs, ∃ n e m, Visits r (.stmt (n + 1) (.class D (some e) methods)) m ∧
    evaluate n e (m.note (.classDefined D.lexeme)) = .ok (.class parent) m'

theorem Visits.defined {D : Token} {methods : List FunctionDecl} {parent : ClassId} (hr : r ∈ runs)
    (h : Visits r (.classDefinition D (some parent) methods) m) : Defined runs D methods parent m := by
  cases h with
  | step h hs =>
    cases hs with
    | class_derived he => exact ⟨r,hr,_,_,_,h,he⟩

theorem Course.seat {h₀ h₁ : Heap} (hcourse : Course (Done runs) h₀ h₁) (hdone : Done runs w m)
    (hmet : ∀ r' ∈ runs, ∀ w' m', Visits r' w' m' → ∃ earlier, Met earlier r' w' m') {D : Token}
    {methods : List FunctionDecl} {sites : List Site} {d : Nat} (hsites : InSubclass D methods sites d)
    {frames : List Frame} {j : ScopeId} (hchain : Chain runs m.heap frames j)
    (hframes : frames.map Frame.site = sites) :
    ∃ i parent m', m.heap.Seat j d i parent ⟨m'.heap.scopes.size⟩ ∧ Defined runs D methods parent m' ∧
      m'.heap.Retains m.heap := by
  induction hsites generalizing frames j with
  | @method f sites hf =>
    cases hchain with
    | nil => simp at hframes
    | @cons f₁ frames _ k hj hk _ hsite houter =>
      cases houter with
      | nil => simp at hframes
      | @cons f₂ frames _ l hj' hk' _ hsite' _ =>
        simp only [List.map_cons,List.cons.injEq] at hframes
        rw [hframes.1] at hsite
        rw [hframes.2.1] at hsite'
        obtain ⟨-,-,w₁,m₁,-,hopens,rfl,-,hheld⟩ := hcourse.activation hdone hsite hj
        obtain ⟨i,hi⟩ := hopens.receiver_holds
        obtain ⟨r₂,hr₂,w₂,m₂,hvisits,hopens',rfl,hretains,haround⟩ := hcourse.activation hdone hsite' hj'
        obtain ⟨parent,rfl,hparent⟩ := hopens'.superclass_holds
        have hthis : (m.heap.getScope ⟨m₁.heap.scopes.size⟩).bindings.find? "this" = some (.instance i) := by
          rw [hheld "this" (.inl rfl),hi,Bindings.find?_insert_self]
        have hnone : (m.heap.getScope ⟨m₁.heap.scopes.size⟩).bindings.find? "super" = none := by
          rw [hheld "super" (.inr rfl),hi,Bindings.find?_insert,if_neg (by decide),Bindings.find?_emptyCollection]
        have hsuper : (m.heap.getScope ⟨m₂.heap.scopes.size⟩).bindings.find? "super" = some (.class parent) := by
          rw [haround "super" (.inr rfl),hparent,Bindings.find?_insert_self]
        have hdefined : m₂.heap.Retains m.heap := (hcourse.opens _ _ ⟨r₂,hr₂,hvisits⟩).trans hretains
        exact ⟨i,parent,m₂,⟨fun _ => ⟨_,rfl,hthis⟩,fun _ => by simp only [Heap.outward,hk],hsuper,.here hthis,
          .outward hnone hk (.here hsuper)⟩,hvisits.defined hr₂,hdefined⟩
  | @block body sites d _ ih =>
    cases hchain with
    | nil => simp at hframes
    | @cons f frames _ k hj hk _ hsite houter =>
      simp only [List.map_cons,List.cons.injEq] at hframes
      rw [hframes.1] at hsite
      obtain ⟨-,-,w₁,m₁,-,hopens,rfl,-,hheld⟩ := hcourse.activation hdone hsite hj
      obtain ⟨i,parent,m',hseat,hdefined⟩ := ih houter hframes.2
      exact ⟨i,parent,m',hseat.outward hk fun name hname => (hheld name hname).trans (hopens.block_holds name),
        hdefined⟩
  | @call f sites d _ ih =>
    cases hchain with
    | nil => simp at hframes
    | @cons f frames _ k hj hk _ hsite houter =>
      simp only [List.map_cons,List.cons.injEq] at hframes
      rw [hframes.1] at hsite
      obtain ⟨r₁,hr₁,w₁,m₁,hvisits,hopens,rfl,-,hheld⟩ := hcourse.activation hdone hsite hj
      obtain ⟨earlier,hcalled⟩ := hmet r₁ hr₁ w₁ m₁ hvisits
      obtain ⟨i,parent,m',hseat,hdefined⟩ := ih houter hframes.2
      exact ⟨i,parent,m',hseat.outward hk fun name hname =>
        (hheld name hname).trans (hopens.call_holds hcalled hname),hdefined⟩

end Lox

import Lox.Proofs.Run.Closure
import Lox.Proofs.Scoping.Table

/-! A machine at a point of a program: its chain of scopes is the one that scoping sees there, and the
current scope has no other names. -/
namespace Lox

/-- How a machine changes by work that is finished. Of the scopes that are there before, only the
current one gets names, and only such as are allowed. -/
structure Later (added : String → Prop) (m m' : Machine) : Prop where
  heap : m.heap.Extends m'.heap
  scope : m'.scope = m.scope
  distances : m'.distances = m.distances
  names : ∀ j name, j.index < m.heap.scopes.size → m'.heap.Binds j name →
    m.heap.Binds j name ∨ (j = m.scope ∧ added name)

/-- No names are added. -/
abbrev Later.Same (m m' : Machine) : Prop := Later (fun _ => False) m m'

/-- What holds of a machine wherever it is in a program. -/
structure Ready (runs : List Run) (m : Machine) : Prop where
  good : Good runs m.heap
  accepted : ∀ r ∈ runs, Accepted r.program
  tabled : ∀ r ∈ runs, Tabled r.program m.distances

structure At (runs : List Run) (c : Context) (m : Machine) : Prop extends Ready runs m where
  coherent : c.Coherent
  chain : Chain runs m.heap c.frames m.scope
  exact : ∀ f ∈ c.frames.head?, ∀ name, m.heap.Binds m.scope name → f.names.find? name = some true

variable {runs : List Run} {c : Context} {m m' m'' : Machine} {P Q L : String → Prop}

namespace Later

theorem refl (P : String → Prop) (m : Machine) : Later P m m :=
  ⟨.refl _,rfl,rfl,fun _ _ _ hj => .inl hj⟩

/-- Only objects other than scopes are added. -/
theorem of_heap (hheap : m.heap.Extends m'.heap) (hscopes : m'.heap.scopes = m.heap.scopes)
    (hscope : m'.scope = m.scope) (hdistances : m'.distances = m.distances) : Later P m m' where
  heap := hheap
  scope := hscope
  distances := hdistances
  names j name _ hj := .inl (by simpa [Heap.Binds,Heap.getScope,hscopes] using hj)

/-- The parts that matter are the same. -/
theorem of_eq (hheap : m'.heap = m.heap) (hscope : m'.scope = m.scope)
    (hdistances : m'.distances = m.distances) : Later P m m' :=
  of_heap (hheap ▸ .refl _) (congrArg Heap.scopes hheap) hscope hdistances

theorem trans (a : Later P m m') (b : Later Q m' m'') (hP : ∀ name, P name → L name)
    (hQ : ∀ name, Q name → L name) : Later L m m'' where
  heap := a.heap.trans b.heap
  scope := b.scope.trans a.scope
  distances := b.distances.trans a.distances
  names j name hlt hj := by
    rcases b.names j name (Nat.lt_of_lt_of_le hlt a.heap.scopes) hj with hj | ⟨rfl,hname⟩
    · rcases a.names j name hlt hj with hj | ⟨rfl,hname⟩
      · exact .inl hj
      · exact .inr ⟨rfl,hP name hname⟩
    · exact .inr ⟨a.scope,hQ name hname⟩

theorem mono (a : Later P m m') (hP : ∀ name, P name → Q name) : Later Q m m' :=
  a.trans (.refl P m') hP hP

theorem same_trans (a : Later.Same m m') (b : Later P m' m'') : Later P m m'' :=
  a.trans b (fun _ hname => hname.elim) (fun _ hname => hname)

theorem addScope (s : Scope) : Later.Same m { m with heap := (m.heap.addScope s).2 } where
  heap := .addScope m.heap s
  scope := rfl
  distances := rfl
  names j name hlt hj := by
    rw [Heap.Binds,Heap.getScope_addScope,if_neg (Nat.ne_of_lt hlt)] at hj
    exact .inl hj

theorem define (name : String) (v : Value) :
    Later (· = name) m { m with heap := m.heap.define m.scope name v } where
  heap := .define m.heap m.scope name v
  scope := rfl
  distances := rfl
  names j other hlt hj := by
    rcases (Heap.binds_define m.heap m.scope j name other v).mp hj with ⟨rfl,-,rfl⟩ | hj
    · exact .inr ⟨rfl,rfl⟩
    · exact .inl hj

/-- A name that a scope has already may get another value. -/
theorem redefine {j : ScopeId} {name : String} (hj : m.heap.Binds j name) (v : Value) :
    Later.Same m { m with heap := m.heap.define j name v } where
  heap := .define m.heap j name v
  scope := rfl
  distances := rfl
  names i other hlt hi := by
    rcases (Heap.binds_define m.heap j i name other v).mp hi with ⟨rfl,-,rfl⟩ | hi
    · exact .inl hj
    · exact .inl hi

/-- Names that are added to a new scope do not concern those that were there before. -/
theorem inNew {s : Scope} (a : Later P (m.inNew s) m') :
    Later.Same m { m' with scope := m.scope } where
  heap := (Heap.Extends.addScope m.heap s).trans a.heap
  scope := rfl
  distances := a.distances
  names j name hlt hj := by
    have hsize : (m.inNew s).heap.scopes.size = m.heap.scopes.size + 1 := by
      simp [Machine.inNew,Heap.addScope]
    rcases a.names j name (by omega) hj with hj | ⟨rfl,-⟩
    · exact (addScope s).names j name hlt hj
    · exact absurd hlt (Nat.lt_irrefl _)

end Later

theorem Ready.later (h : Ready runs m) (hdistances : m'.distances = m.distances)
    (hgood : Good runs m'.heap) : Ready runs m' :=
  ⟨hgood,h.accepted,fun r hr => hdistances ▸ h.tabled r hr⟩

/-- A call depth, an output or a log may differ. -/
theorem Ready.of_eq (h : Ready runs m) (hheap : m'.heap = m.heap)
    (hdistances : m'.distances = m.distances) : Ready runs m' :=
  h.later hdistances (hheap ▸ h.good)

namespace At

theorem of_eq (h : At runs c m) (hheap : m'.heap = m.heap) (hscope : m'.scope = m.scope)
    (hdistances : m'.distances = m.distances) : At runs c m' where
  toReady := h.toReady.of_eq hheap hdistances
  coherent := h.coherent
  chain := by rw [hheap,hscope]; exact h.chain
  exact f hf name hname := h.exact f hf name (by rwa [hheap,hscope] at hname)

theorem note (h : At runs c m) (e : Event) : At runs c (m.note e) := h.of_eq rfl rfl rfl

/-- The innermost scope of a function or block is one of the heap. -/
theorem inRange (h : At runs c m) {f : Frame} (hf : f ∈ c.frames.head?) :
    m.scope.index < m.heap.scopes.size := by
  have hchain := h.chain
  cases hframes : c.frames with
  | nil => simp [hframes] at hf
  | cons g frames =>
    rw [hframes] at hchain
    cases hchain with
    | cons hj => exact hj

theorem later (h : At runs c m) (hl : Later.Same m m') (hgood : Good runs m'.heap) :
    At runs c m' where
  toReady := h.toReady.later hl.distances hgood
  coherent := h.coherent
  chain := hl.scope ▸ h.chain.extends hl.heap
  exact f hf name hname := by
    rw [hl.scope] at hname
    rcases hl.names _ name (h.inRange hf) hname with hname | ⟨-,hname⟩
    · exact h.exact f hf name hname
    · exact hname.elim

/-- Behind a declaration. -/
theorem define (h : At runs c m) (hsettled : c.initializing = none) {name : String}
    (hname : name ≠ "this" ∧ name ≠ "super") (hdeclares : ∀ f ∈ c.frames.head?, f.site.Declares name)
    (hl : Later (· = name) m m') (hgood : Good runs m'.heap)
    (hbinds : m.scope.index < m.heap.scopes.size → m'.heap.Binds m.scope name) :
    At runs (c.define name) m' where
  toReady := h.toReady.later hl.distances hgood
  coherent := h.coherent.define hsettled hname hdeclares
  chain := hl.scope ▸ h.chain.define hl.heap hbinds
  exact f hf other hother := by
    obtain ⟨frames,around,initializing⟩ := c
    cases frames with
    | nil => simp [Context.define,Context.mark] at hf
    | cons g frames =>
      obtain rfl := Option.some.inj hf
      rw [Bindings.find?_insert]
      split
      next => rfl
      next hne =>
        rw [hl.scope] at hother
        rcases hl.names _ other (h.inRange (f := g) (by simp)) hother with hother | ⟨-,heq⟩
        · exact h.exact g (by simp) other hother
        · exact absurd heq hne

/-- In front of the initial value of a new variable. -/
theorem initializer (h : At runs c m) (hsettled : c.initializing = none) {name : String}
    (hname : name ≠ "this" ∧ name ≠ "super") (hdeclares : ∀ f ∈ c.frames.head?, f.site.Declares name)
    (hnew : ∀ f ∈ c.frames.head?, f.names.contains name = false) :
    At runs (c.initializer name) m where
  toReady := h.toReady
  coherent := h.coherent.initializer hsettled hname hdeclares
  chain := by
    have hchain := h.chain
    obtain ⟨frames,around,initializing⟩ := c
    cases frames with
    | nil => exact hchain
    | cons f frames =>
      cases hchain with
      | cons hj hk hnames hsite houter =>
        refine .cons hj hk (fun other hother => ?_) hsite houter
        rw [Bindings.find?_insert] at hother
        split at hother
        next => simp at hother
        next => exact hnames other hother
  exact f hf other hother := by
    obtain ⟨frames,around,initializing⟩ := c
    cases frames with
    | nil => simp [Context.initializer,Context.mark] at hf
    | cons g frames =>
      obtain rfl := Option.some.inj hf
      have hbound := h.exact g (by simp) other hother
      have hne : other ≠ name := by
        rintro rfl
        have hcontains := hnew g (by simp)
        simp [Bindings.contains,hbound] at hcontains
      rw [Bindings.find?_insert,if_neg hne]
      exact hbound

/-- A new scope is entered whose names are exactly those that are marked. -/
theorem enter (h : Ready runs m) {c : Context} (hcoherent : c.Coherent) {f : Frame}
    {frames : List Frame} (hframes : c.frames = f :: frames) {s : Scope} {k : ScopeId}
    (hk : s.enclosing = some k) (hchain : Chain runs m.heap frames k)
    (hsound : Sound runs m.heap s.bindings) (hsite : Activation runs f.site ⟨m.heap.scopes.size⟩)
    (hnames : ∀ name, s.bindings.contains name ↔ f.names.find? name = some true) :
    At runs c (m.inNew s) where
  toReady := h.later rfl (h.good.addScope hsound)
  coherent := hcoherent
  chain := by
    rw [hframes]
    exact hchain.enter hk (fun name => (hnames name).mpr) hsite
  exact g hg name hname := by
    obtain rfl : f = g := by simpa [hframes] using hg
    have hnew := congrArg (·.bindings.contains name) (Heap.getScope_new m.heap s)
    exact (hnames name).mp (hnew.symm.trans hname)

end At

end Lox

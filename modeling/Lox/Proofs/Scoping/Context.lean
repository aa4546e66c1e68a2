import Lox.Proofs.Scoping.Resolver

/-! A point of a program as scoping sees it: the scopes around it, each with the construct that opens
it, and what scoping finds from there on. -/
namespace Lox

/-- A static scope with the names that are marked in it so far. -/
structure Frame where
  site : Site
  names : Bindings Bool

/-- The static scopes around a point, innermost first. -/
structure Context where
  frames : List Frame
  around : Surroundings
  initializing : Option String

namespace Context

def scopes (c : Context) : List (Bindings Bool) := c.frames.map Frame.names

def sites (c : Context) : List Site := c.frames.map Frame.site

def place (c : Context) : Place := ⟨c.sites,c.initializing⟩

/-- Outside all functions and classes. -/
def top : Context := ⟨[],⟨.none,.none⟩,none⟩

def enter (c : Context) (f : Frame) : Context := { c with frames := f :: c.frames, initializing := none }

/-- Mark a name in the innermost scope. -/
def mark (c : Context) (name : String) (defined : Bool) : Context :=
  match c.frames with
  | [] => c
  | f :: frames => { c with frames := { f with names := f.names.insert name defined } :: frames }

/-- The point in front of a variable's initial value. -/
def initializer (c : Context) (name : String) : Context :=
  { c.mark name false with initializing := some name }

/-- The point behind a declaration. -/
def define (c : Context) (name : String) : Context := c.mark name true

def defineIf (c : Context) (name : Option String) : Context :=
  match name with
  | none => c
  | some name => c.define name

/-- The point in front of a function's body: its parameters share a scope with what the body declares. -/
def calling (c : Context) (context : FunctionContext) (d : FunctionDecl) : Context where
  frames := ⟨.call d,d.parameters.foldl (fun names p => names.insert p.lexeme true) ∅⟩ :: c.frames
  around := { c.around with inFunction := context }
  initializing := none

/-- The point in front of a method, with the scope of its receiver. -/
def receiving (c : Context) (method : FunctionDecl) : Context :=
  c.enter ⟨.receiver method,(∅ : Bindings Bool).insert "this" true⟩

/-- The point around the methods of a class. Those of a subclass have a scope for `super`. -/
def inClass (c : Context) (name : Token) (superclass : Option Expr) (methods : List FunctionDecl) :
    Context :=
  match superclass with
  | none => { c.define name.lexeme with around := { c.around with inClass := .plain } }
  | some _ => { c.define name.lexeme with around := { c.around with inClass := .subclass } }.enter
    ⟨.superclass name methods,(∅ : Bindings Bool).insert "super" true⟩

@[simp] theorem enter_scopes (c : Context) (f : Frame) : (c.enter f).scopes = f.names :: c.scopes := rfl

@[simp] theorem enter_sites (c : Context) (f : Frame) : (c.enter f).sites = f.site :: c.sites := rfl

@[simp] theorem mark_scopes (c : Context) (name : String) (defined : Bool) :
    (c.mark name defined).scopes = Scoping.marked name defined c.scopes := by
  obtain ⟨frames,around,initializing⟩ := c
  cases frames <;> rfl

@[simp] theorem mark_sites (c : Context) (name : String) (defined : Bool) :
    (c.mark name defined).sites = c.sites := by
  obtain ⟨frames,around,initializing⟩ := c
  cases frames <;> rfl

@[simp] theorem mark_around (c : Context) (name : String) (defined : Bool) :
    (c.mark name defined).around = c.around := by
  obtain ⟨frames,around,initializing⟩ := c
  cases frames <;> rfl

@[simp] theorem mark_initializing (c : Context) (name : String) (defined : Bool) :
    (c.mark name defined).initializing = c.initializing := by
  obtain ⟨frames,around,initializing⟩ := c
  cases frames <;> rfl

@[simp] theorem initializer_scopes (c : Context) (name : String) :
    (c.initializer name).scopes = Scoping.marked name false c.scopes := mark_scopes c name false

@[simp] theorem initializer_place (c : Context) (name : String) :
    (c.initializer name).place = ⟨c.sites,some name⟩ :=
  congrArg (Place.mk · (some name)) (mark_sites c name false)

@[simp] theorem initializer_around (c : Context) (name : String) :
    (c.initializer name).around = c.around := mark_around c name false

@[simp] theorem defineIf_scopes (c : Context) (name : Option String) :
    (c.defineIf name).scopes = Scoping.markedIf name c.scopes := by
  cases name with
  | none => rfl
  | some name => exact mark_scopes c name true

@[simp] theorem defineIf_sites (c : Context) (name : Option String) :
    (c.defineIf name).sites = c.sites := by
  cases name with
  | none => rfl
  | some name => exact mark_sites c name true

@[simp] theorem defineIf_around (c : Context) (name : Option String) :
    (c.defineIf name).around = c.around := by
  cases name with
  | none => rfl
  | some name => exact mark_around c name true

theorem defineIf_initializing (c : Context) (name : Option String) :
    (c.defineIf name).initializing = c.initializing := by
  cases name with
  | none => rfl
  | some name => exact mark_initializing c name true

theorem inClass_sites (c : Context) (name : Token) (superclass : Option Expr)
    (methods : List FunctionDecl) : (c.inClass name superclass methods).sites =
      match superclass with
      | none => c.sites
      | some _ => .superclass name methods :: c.sites := by
  cases superclass with
  | none => exact mark_sites c name.lexeme true
  | some parent => exact congrArg (Site.superclass name methods :: ·) (mark_sites c name.lexeme true)

/-- The innermost construct is the same behind a declaration. -/
theorem mark_head? {c : Context} {name : String} {defined : Bool} {f : Frame}
    (h : f ∈ (c.mark name defined).frames.head?) : ∃ g ∈ c.frames.head?, g.site = f.site := by
  obtain ⟨frames,around,initializing⟩ := c
  cases frames with
  | nil => simp [mark] at h
  | cons first frames =>
    obtain rfl := Option.some.inj h
    exact ⟨first,rfl,rfl⟩

theorem defineIf_head? {c : Context} {name : Option String} {f : Frame}
    (h : f ∈ (c.defineIf name).frames.head?) : ∃ g ∈ c.frames.head?, g.site = f.site := by
  cases name with
  | none => exact ⟨f,h,rfl⟩
  | some name => exact mark_head? h

/-- Marking a name changes nothing for the others. -/
theorem mark_getElem? {c : Context} {d : Nat} {f : Frame} (h : c.frames[d]? = some f) (name : String)
    (defined : Bool) : ∃ g, (c.mark name defined).frames[d]? = some g ∧ g.site = f.site ∧
      ∀ other, other ≠ name → g.names.find? other = f.names.find? other := by
  obtain ⟨frames,around,initializing⟩ := c
  cases frames with
  | nil => simp at h
  | cons first frames =>
    cases d with
    | zero =>
      obtain rfl : first = f := by simpa using h
      refine ⟨_,rfl,rfl,fun other hother => ?_⟩
      simp [Bindings.find?_insert,hother]
    | succ d => exact ⟨f,h,rfl,fun _ _ => rfl⟩

end Context

namespace Scoping

theorem depth?_marked {name other : String} (h : other ≠ name) (defined : Bool)
    (scopes : List (Bindings Bool)) : depth? (marked name defined scopes) other = depth? scopes other := by
  cases scopes with
  | nil => rfl
  | cons scope scopes => simp [depth?,marked,List.findIdx?_cons,Bindings.contains_insert,h]

theorem depth?_cons (scope : Bindings Bool) (scopes : List (Bindings Bool)) (name : String) :
    depth? (scope :: scopes) name =
      if scope.contains name then some 0 else (depth? scopes name).map (· + 1) := by
  simp [depth?,List.findIdx?_cons]

end Scoping

namespace Context

/-- What holds of the marks at every point of a program without a fault. A name is marked as undefined
only while it is given its initial value, and only in the innermost scope. -/
structure Marked (c : Context) : Prop where
  outer : ∀ f ∈ c.frames.tail, ∀ name, f.names.find? name ≠ some false
  inner : ∀ f ∈ c.frames.head?, ∀ name, f.names.find? name = some false ↔ c.initializing = some name
  declares : ∀ f ∈ c.frames, ∀ name, f.names.contains name → f.site.Declares name
  fresh : ∀ name, c.initializing = some name → name ≠ "this" ∧ name ≠ "super"

/-- In a class there is a scope that holds `this`, and in a subclass it lies just inside the one that
holds `super`, with only functions and blocks further in. -/
structure Placed (c : Context) : Prop where
  receiver : c.around.inClass ≠ .none → (Scoping.depth? c.scopes "this").isSome
  superclass : c.around.inClass = .subclass → ∃ name methods d f, InSubclass name methods c.sites d ∧
    Scoping.depth? c.scopes "super" = some (d + 1) ∧ c.frames[d]? = some f ∧ f.names.contains "this"

structure Coherent (c : Context) : Prop extends Marked c, Placed c

theorem Coherent.top : Context.top.Coherent where
  outer := by simp [Context.top]
  inner := by simp [Context.top]
  declares := by simp [Context.top]
  fresh := by simp [Context.top]
  receiver := by simp [Context.top]
  superclass := by simp [Context.top]

variable {c : Context} {f : Frame}

/-- A scope is entered whose names are all defined. -/
theorem Marked.enter (h : c.Marked) (hinit : c.initializing = none)
    (hnames : ∀ name, f.names.find? name ≠ some false)
    (hdeclares : ∀ name, f.names.contains name → f.site.Declares name) : (c.enter f).Marked where
  outer g hg := by
    obtain ⟨frames,around,initializing⟩ := c
    cases frames with
    | nil => simp [Context.enter] at hg
    | cons first frames =>
      rcases List.mem_cons.mp hg with rfl | hg
      · intro name hname
        have hinner := (h.inner g (by simp) name).mp hname
        exact absurd (hinit.symm.trans hinner) (by simp)
      · exact h.outer g hg
  inner g hg name := by
    simp only [Context.enter,List.head?_cons,Option.mem_some_iff] at hg
    subst hg
    simp [Context.enter,hnames name]
  declares g hg := by
    rcases List.mem_cons.mp hg with rfl | hg
    · exact hdeclares
    · exact h.declares g hg
  fresh name hname := by simp [Context.enter] at hname

/-- A function or a block is entered. -/
theorem Placed.enter (h : c.Placed) (hsuper : f.names.contains "super" = false)
    (hinside : ∀ name methods d, InSubclass name methods c.sites d →
      InSubclass name methods (f.site :: c.sites) (d + 1)) : (c.enter f).Placed where
  receiver hc := by
    have hdepth := h.receiver hc
    simp only [enter_scopes,Scoping.depth?_cons]
    split
    · rfl
    · simpa using hdepth
  superclass hc := by
    obtain ⟨name,methods,d,g,hsites,hdepth,hg,hthis⟩ := h.superclass hc
    refine ⟨name,methods,d + 1,g,hinside name methods d hsites,?_,hg,hthis⟩
    simp [Scoping.depth?_cons,hsuper,hdepth]

/-- A point where another name is marked in the innermost scope. -/
theorem Placed.mark (h : c.Placed) {name : String} (hname : name ≠ "this" ∧ name ≠ "super")
    (defined : Bool) : (c.mark name defined).Placed where
  receiver hc := by
    rw [mark_scopes,Scoping.depth?_marked hname.1.symm]
    exact h.receiver (by simpa using hc)
  superclass hc := by
    obtain ⟨D,methods,d,g,hsites,hdepth,hg,hthis⟩ := h.superclass (by simpa using hc)
    obtain ⟨g',hg',-,hsame⟩ := mark_getElem? hg name defined
    refine ⟨D,methods,d,g',by simpa using hsites,?_,hg',?_⟩
    · rw [mark_scopes,Scoping.depth?_marked hname.2.symm,hdepth]
    · simpa [Bindings.contains,hsame "this" hname.1.symm] using hthis

theorem Placed.of_frames {c' : Context} (h : c.Placed) (hframes : c'.frames = c.frames)
    (haround : c'.around = c.around) : c'.Placed where
  receiver hc := by
    rw [Context.scopes,hframes]
    exact h.receiver (haround ▸ hc)
  superclass hc := by
    rw [Context.sites,Context.scopes,hframes]
    exact h.superclass (haround ▸ hc)

/-- A name of the innermost construct is marked there. -/
theorem Marked.mark {c' : Context} (h : c.Marked) (hinit : c.initializing = none) {name : String}
    {defined : Bool} (hframes : c'.frames = (c.mark name defined).frames)
    (hinit' : c'.initializing = if defined then none else some name)
    (hname : name ≠ "this" ∧ name ≠ "super") (hdeclares : ∀ f ∈ c.frames.head?, f.site.Declares name) :
    c'.Marked where
  outer f hf := by
    obtain ⟨frames,around,initializing⟩ := c
    cases frames with
    | nil => simp [Context.mark] at hframes; simp [hframes] at hf
    | cons first frames =>
      rw [hframes] at hf
      exact h.outer f hf
  inner f hf other := by
    obtain ⟨frames,around,initializing⟩ := c
    cases frames with
    | nil => simp [Context.mark] at hframes; simp [hframes] at hf
    | cons first frames =>
      have hfirst := h.inner first (by simp) other
      simp only [hframes,Context.mark,List.head?_cons,Option.mem_some_iff] at hf
      subst hf
      rw [hinit']
      by_cases hother : other = name
      · subst hother
        cases defined <;> simp [Bindings.find?_insert_self]
      · cases defined <;> simp_all [Bindings.find?_insert,eq_comm]
  declares f hf other hother := by
    obtain ⟨frames,around,initializing⟩ := c
    cases frames with
    | nil => simp [Context.mark] at hframes; simp [hframes] at hf
    | cons first frames =>
      rw [hframes] at hf
      rcases List.mem_cons.mp hf with rfl | hf
      · by_cases heq : other = name
        · subst heq
          exact hdeclares first (by simp)
        · refine h.declares first (by simp) other ?_
          simpa [Bindings.contains_insert,heq] using hother
      · exact h.declares f (List.mem_cons_of_mem _ hf) other hother
  fresh other hother := by
    rw [hinit'] at hother
    cases defined with
    | true => simp at hother
    | false =>
      obtain rfl : name = other := by simpa using hother
      exact hname

theorem frame_of_depth? {name : String} {d : Nat} (hd : Scoping.depth? c.scopes name = some d) :
    ∃ f, c.frames[d]? = some f ∧ f.names.contains name := by
  obtain ⟨hlt,hcontains,-⟩ := List.findIdx?_eq_some_iff_getElem.mp hd
  have hlt' : d < c.frames.length := by simpa [scopes] using hlt
  exact ⟨c.frames[d],List.getElem?_eq_getElem hlt',by simpa [scopes] using hcontains⟩

/-- A name with a mark is defined, except for a variable that is being given its initial value. -/
theorem Marked.defined_at (h : c.Marked) {name : String} {d : Nat} (hf : c.frames[d]? = some f)
    (hcontains : f.names.contains name) (hinit : c.initializing ≠ some name) :
    f.names.find? name = some true := by
  obtain ⟨defined,hdefined⟩ := Option.isSome_iff_exists.mp hcontains
  cases defined with
  | true => exact hdefined
  | false =>
    cases d with
    | zero =>
      have hhead : f ∈ c.frames.head? := by simpa [List.head?_eq_getElem?] using hf
      exact absurd ((h.inner f hhead name).mp hdefined) hinit
    | succ d =>
      have htail : f ∈ c.frames.tail := List.mem_of_getElem? (by simpa using hf)
      exact absurd hdefined (h.outer f htail name)

theorem Marked.defined (h : c.Marked) {name : String} {d : Nat}
    (hd : Scoping.depth? c.scopes name = some d) (hinit : c.initializing ≠ some name) :
    ∃ f, c.frames[d]? = some f ∧ f.names.find? name = some true ∧ f.site.Declares name := by
  obtain ⟨f,hf,hcontains⟩ := frame_of_depth? hd
  exact ⟨f,hf,h.defined_at hf hcontains hinit,h.declares f (List.mem_of_getElem? hf) name hcontains⟩

/-- A variable that is being given its initial value is found in the innermost scope. -/
theorem Marked.undefined (h : c.Marked) {name : String} {d : Nat}
    (hd : Scoping.depth? c.scopes name = some d) (hinit : c.initializing = some name) :
    d = 0 ∧ ∃ f ∈ c.frames.head?, f.names.find? name = some false := by
  obtain ⟨frames,around,initializing⟩ := c
  cases frames with
  | nil => simp [Scoping.depth?,scopes] at hd
  | cons f frames =>
    have hfalse := (h.inner f (by simp) name).mpr hinit
    have hcontains : f.names.contains name = true := by simp [Bindings.contains,hfalse]
    simp only [scopes,List.map_cons,Scoping.depth?_cons,hcontains,if_true] at hd
    exact ⟨(Option.some.inj hd).symm,f,by simp,hfalse⟩

theorem Marked.not_initializing (h : c.Marked) {name : String}
    (hhead : ∀ f ∈ c.frames.head?, f.names.find? name ≠ some false) {d : Nat}
    (hd : Scoping.depth? c.scopes name = some d) : c.initializing ≠ some name := by
  intro hinit
  obtain ⟨-,f,hf,hfalse⟩ := h.undefined hd hinit
  exact hhead f hf hfalse

theorem contains_parameters (parameters : List Token) (names : Bindings Bool) (name : String) :
    (parameters.foldl (fun names p => names.insert p.lexeme true) names).contains name ↔
      names.contains name ∨ ∃ p ∈ parameters, p.lexeme = name := by
  induction parameters generalizing names with
  | nil => simp
  | cons p parameters ih =>
    rw [List.foldl_cons,ih,Bindings.contains_insert]
    by_cases hp : name = p.lexeme
    · simp [hp]
    · simp [hp,Ne.symm hp]

theorem find?_parameters (parameters : List Token) {names : Bindings Bool} {name : String}
    (h : names.find? name ≠ some false) :
    (parameters.foldl (fun names p => names.insert p.lexeme true) names).find? name ≠ some false := by
  induction parameters generalizing names with
  | nil => exact h
  | cons p parameters ih =>
    apply ih
    rw [Bindings.find?_insert]
    split
    · simp
    · exact h

theorem find?_parameters_iff (parameters : List Token) (name : String) :
    (parameters.foldl (fun names p => names.insert p.lexeme true) (∅ : Bindings Bool)).find? name =
      some true ↔ ∃ p ∈ parameters, p.lexeme = name := by
  have hcontains := contains_parameters parameters ∅ name
  have hfalse := find?_parameters parameters (show (∅ : Bindings Bool).find? name ≠ some false by simp)
  generalize parameters.foldl (fun names p => names.insert p.lexeme true) (∅ : Bindings Bool) =
    names at hcontains hfalse ⊢
  rw [Bindings.contains_emptyCollection] at hcontains
  simp only [Bool.false_eq_true,false_or] at hcontains
  rw [← hcontains,Bindings.contains]
  cases hname : names.find? name with
  | none => simp
  | some defined =>
    cases defined with
    | true => simp
    | false => exact absurd hname hfalse

/-- What holds of a scope with a single name. -/
theorem find?_single {name other : String} :
    ((∅ : Bindings Bool).insert name true).find? other = if other = name then some true else none :=
  Bindings.find?_insert _ _ _ _

namespace Coherent

theorem initializer (h : c.Coherent) (hinit : c.initializing = none) {name : String}
    (hname : name ≠ "this" ∧ name ≠ "super") (hdeclares : ∀ f ∈ c.frames.head?, f.site.Declares name) :
    (c.initializer name).Coherent where
  toMarked := h.toMarked.mark hinit rfl rfl hname hdeclares
  toPlaced := (h.toPlaced.mark hname false).of_frames rfl rfl

theorem define (h : c.Coherent) (hinit : c.initializing = none) {name : String}
    (hname : name ≠ "this" ∧ name ≠ "super") (hdeclares : ∀ f ∈ c.frames.head?, f.site.Declares name) :
    (c.define name).Coherent where
  toMarked := h.toMarked.mark hinit rfl (by simpa [Context.define] using hinit) hname hdeclares
  toPlaced := h.toPlaced.mark hname true

theorem enter (h : c.Coherent) (hinit : c.initializing = none)
    (hnames : ∀ name, f.names.find? name ≠ some false)
    (hdeclares : ∀ name, f.names.contains name → f.site.Declares name)
    (hsuper : f.names.contains "super" = false)
    (hinside : ∀ name methods d, InSubclass name methods c.sites d →
      InSubclass name methods (f.site :: c.sites) (d + 1)) : (c.enter f).Coherent where
  toMarked := h.toMarked.enter hinit hnames hdeclares
  toPlaced := h.toPlaced.enter hsuper hinside

theorem block (h : c.Coherent) (hinit : c.initializing = none) (body : List Stmt) :
    (c.enter ⟨.block body,∅⟩).Coherent :=
  h.enter hinit (fun _ => by simp) (fun _ hname => by simp at hname) rfl fun _ _ _ => .block

theorem calling (h : c.Coherent) (hinit : c.initializing = none) {d : FunctionDecl}
    (hparameters : ∀ p ∈ d.parameters, p.IsName) (context : FunctionContext) :
    (c.calling context d).Coherent := by
  have hentered : (c.enter ⟨.call d,d.parameters.foldl
      (fun names p => names.insert p.lexeme true) ∅⟩).Coherent := by
    apply h.enter hinit
    · intro name
      exact find?_parameters d.parameters (by simp)
    · intro name hname
      have hp := (contains_parameters _ _ _).mp hname
      exact .inl (by simpa using hp)
    · rw [Bool.eq_false_iff]
      intro hsuper
      have hp := (contains_parameters _ _ _).mp hsuper
      obtain ⟨p,hp,hlexeme⟩ : ∃ p ∈ d.parameters, p.lexeme = "super" := by simpa using hp
      exact (hparameters p hp).2 hlexeme
    · exact fun _ _ _ => .call
  exact ⟨⟨hentered.outer,hentered.inner,hentered.declares,hentered.fresh⟩,
    ⟨hentered.receiver,hentered.superclass⟩⟩

end Coherent

/-- A scope with `this` is entered. -/
theorem Marked.receiving (h : c.Marked) (hinit : c.initializing = none) (d : FunctionDecl) :
    (c.receiving d).Marked := by
  apply h.enter hinit
  · intro name
    rw [find?_single]
    split <;> simp
  · intro name hname
    simpa [Site.Declares,Bindings.contains_insert] using hname

/-- A method has `this` in scope, and `super` just around it in a subclass. -/
theorem Coherent.receiving (h : c.Coherent) (hinit : c.initializing = none) {name : Token}
    (hname : name.IsName)
    (hdeclares : ∀ f ∈ c.frames.head?, f.site.Declares name.lexeme) (superclass : Option Expr)
    {methods : List FunctionDecl} {d : FunctionDecl} (hd : d ∈ methods) :
    ((c.inClass name superclass methods).receiving d).Coherent := by
  have hdefined := h.define hinit hname hdeclares
  have hinit' : (c.define name.lexeme).initializing = none := (mark_initializing _ _ _).trans hinit
  cases superclass with
  | none =>
    have hmarked : (c.inClass name none methods).Marked :=
      ⟨hdefined.outer,hdefined.inner,hdefined.declares,hdefined.fresh⟩
    refine ⟨hmarked.receiving hinit' d,⟨fun _ => ?_,fun hsubclass => ?_⟩⟩
    · rw [Context.receiving,enter_scopes,Scoping.depth?_cons]
      rfl
    · cases hsubclass
  | some parent =>
    have hmarked : ({ c.define name.lexeme with around := { c.around with inClass := .subclass } } :
        Context).Marked :=
      ⟨hdefined.outer,hdefined.inner,hdefined.declares,hdefined.fresh⟩
    have hsuper : (c.inClass name (some parent) methods).Marked := by
      apply hmarked.enter hinit'
      · intro name
        rw [find?_single]
        split <;> simp
      · intro name hname
        simpa [Site.Declares,Bindings.contains_insert] using hname
    refine ⟨hsuper.receiving rfl d,⟨fun _ => ?_,fun _ => ⟨name,methods,0,_,.method hd,?_,rfl,rfl⟩⟩⟩
    · rw [Context.receiving,enter_scopes,Scoping.depth?_cons]
      rfl
    · rw [Context.receiving,enter_scopes,Scoping.depth?_cons]
      rfl

end Context
end Lox

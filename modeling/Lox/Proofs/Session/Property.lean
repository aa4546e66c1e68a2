import Lox.Proofs.Run.Method
import Lox.Proofs.Session.Receiver
import Lox.Proofs.Session.Whole
import Mathlib

/-! Properties of instances: what a name stands for when it is read, and what setting one changes. -/
namespace Lox

open Eval

/-- What comes of reading a property, where the class has the method `d?` under this name: the field, or else this
method, bound to the instance, or else an error. -/
inductive Machine.Reads (m : Machine) (i : InstanceId) (name : Token) :
    Option FunctionDecl → EStateM.Result Halt Machine Value → Prop
  | field {d? v} (hv : (m.heap.getInstance i).fields.find? name.lexeme = some v) : Reads m i name d? (.ok v m)
  | method {d g heap} (hnone : (m.heap.getInstance i).fields.find? name.lexeme = none) (hkept : m.heap.Kept heap)
    (hnew : g = ⟨m.heap.functions.size⟩) (hd : (heap.getFunction g).declaration = d) (hg : heap.BoundTo g i) :
    Reads m i name (some d) (.ok (.function g) { m with heap := heap })
  | undefined (hnone : (m.heap.getInstance i).fields.find? name.lexeme = none) :
    Reads m i name none (Eval.runtime (.undefinedProperty name.lexeme) name m)

/-- The second heap differs from the first one in nothing but this field of this instance. -/
structure Heap.Sets (h : Heap) (i : InstanceId) (name : String) (v : Value) (h' : Heap) : Prop where
  value : h'.property? i name = some (.field v)
  others : ∀ j other, j ≠ i ∨ other ≠ name → h'.property? j other = h.property? j other
  instances : ∀ j, j ≠ i → h'.getInstance j = h.getInstance j
  ofClass : (h'.getInstance i).ofClass = (h.getInstance i).ofClass
  classes : h'.classes = h.classes
  functions : h'.functions = h.functions
  scopes : h'.scopes = h.scopes

variable {runs : List Run} {programs : List (List Stmt)} {s : Session} {r : Run} {w : Work} {m m₁ m₂ m' : Machine}
  {h : Heap} {n : Nat} {e b : Expr} {i : InstanceId} {v : Value} {name : Token}

/-! ### Reading -/

/-- The method that is found for a class is the one that the class declarations provide. -/
theorem Machine.Whole.provides (hm : m.Whole) (hbuilt : m.heap.Built runs) {c : ClassId}
    (hc : c.index < m.heap.classes.size) (word : String) :
    m.heap.Provides runs word c ((m.heap.findMethod? c word).map fun f => (m.heap.getFunction f).declaration) :=
  ((Heap.inherits_findMethod? hm.heap.superclass c word).provides hm.heap.superclass hbuilt hc).1

theorem Machine.Whole.reads (hm : m.Whole) (hbuilt : m.heap.Built runs) (hi : i.index < m.heap.instances.size)
    (name : Token) : ∃ d?, m.heap.Provides runs name.lexeme (m.heap.getInstance i).ofClass d? ∧
      m.Reads i name d? (getProperty (.instance i) name m) := by
  have hget := getProperty_eq i name m
  refine ⟨_,hm.provides hbuilt (hm.heap.instance i hi).known name.lexeme,?_⟩
  cases hfield : (m.heap.getInstance i).fields.find? name.lexeme with
  | some v =>
    simp only [Heap.property?,hfield] at hget
    exact hget ▸ .field hfield
  | none =>
    simp only [Heap.property?,hfield] at hget
    cases hmethod : m.heap.findMethod? (m.heap.getInstance i).ofClass name.lexeme with
    | none =>
      simp only [hmethod] at hget
      exact hget ▸ .undefined hfield
    | some f =>
      simp only [hmethod] at hget
      have hbound : getProperty (.instance i) name m = .ok (.function (m.heap.bind f i).1) (m.binding f i) := hget
      rw [hbound]
      refine .method hfield (.bind m.heap f i) rfl ?_ (.bind m.heap f i)
      rw [Heap.getFunction_bind]

/-- A method that is read is one that the class has. -/
theorem Machine.Reads.declared {d? : Option FunctionDecl} {g : FunctionId} (h : m.Reads i name d? (.ok (.function g) m'))
    (hnone : (m.heap.getInstance i).fields.find? name.lexeme = none) :
    d? = some (m'.heap.getFunction g).declaration := by
  cases h with
  | field hv => cases hnone.symm.trans hv
  | method _ _ _ hd => exact congrArg some hd.symm

/-! ### Setting -/

theorem Heap.Sets.setField (hi : i.index < h.instances.size) (name : String) (v : Value) :
    h.Sets i name v (h.setField i name v) := by
  have hset (j : InstanceId) := Heap.getInstance_setField hi j name v
  have hclasses : (h.setField i name v).classes = h.classes := rfl
  refine ⟨?_,fun j other hother => ?_,fun j hj => ?_,?_,rfl,rfl,rfl⟩
  · rw [property?,hset,if_pos rfl,Bindings.find?_insert_self]
  · simp only [property?,findMethod?_congr hclasses,hset]
    by_cases hij : i = j
    · subst hij
      have hname : other ≠ name := hother.resolve_left fun hne => hne rfl
      rw [if_pos rfl,Bindings.find?_insert,if_neg hname]
    · rw [if_neg hij]
  · rw [hset,if_neg hj.symm]
  · rw [hset,if_pos rfl]

/-! ### The order of look-up -/

/-- Take any expression that has come to an instance. Whatever name is read then, a field counts before a method, and
the method is the last one that is declared under this name in the body of the nearest class upward. It comes back
bound: whenever it is called, `this` is the instance. To set a property changes this field of the instance only, and it
is read back. -/
theorem property_order (hs : Reached runs programs s) (hids : s.ids.allocated ≤ 2 ^ 32) (hr : r ∈ runs)
    (hv : Visits r (.expr n e) m) (he : evaluate n e m = .ok (.instance i) m₁) :
    (∀ name, ∃ d?, m₁.heap.Provides runs name.lexeme (m₁.heap.getInstance i).ofClass d? ∧
        m₁.Reads i name d? (getProperty (.instance i) name m₁)) ∧
      (∀ name, Visits r (.expr (n + 1) (.get e name)) m →
        evaluate (n + 1) (.get e name) m = getProperty (.instance i) name m₁ ∧
          ∀ g m₂, getProperty (.instance i) name m₁ = .ok (.function g) m₂ →
            (m₁.heap.getInstance i).fields.find? name.lexeme = none → Receiver runs g i) ∧
      ∀ name b v m₂, Visits r (.expr (n + 1) (.set e name b)) m → evaluate n b m₁ = .ok v m₂ →
        ∃ heap, evaluate (n + 1) (.set e name b) m = .ok v { m₂ with heap := heap } ∧
          m₂.heap.Sets i name.lexeme v heap ∧
          getProperty (.instance i) name { m₂ with heap := heap } = .ok v { m₂ with heap := heap } := by
  obtain ⟨hm₁,hi⟩ := (hs.visits_whole hr hv).2.evaluate he
  have hi : i.index < m₁.heap.instances.size := hi
  have hevolves : m.heap.Evolves r m₁.heap := ((evolving r n).expr e m hv).ok he
  refine ⟨hm₁.reads (hevolves.built hr (hs.built hr hv)) hi,fun name hget => ⟨?_,fun g m₂ hg hfield => ?_⟩,
    fun name b v m₂ hset hb => ?_⟩
  · rw [evaluate,bind_of_ok he]
  · have hgot := getProperty_eq i name m₁
    cases hmethod : m₁.heap.findMethod? (m₁.heap.getInstance i).ofClass name.lexeme with
    | none =>
      simp only [Heap.property?,hfield,hmethod] at hgot
      cases hg.symm.trans hgot
    | some f =>
      have hproperty : m₁.heap.property? i name.lexeme = some (.method f) := by
        simp only [Heap.property?,hfield,hmethod,Option.map_some]
      simp only [hproperty] at hgot
      obtain ⟨hfunction,-⟩ := EStateM.Result.ok.inj (hg.symm.trans hgot)
      obtain rfl := Value.function.inj hfunction
      exact hs.receiver hids (hs.bound hids hr (hget.step (.get_method he hproperty)))
  · have hgrows : m₁.heap.Grows m₂.heap := (((restoring n).expr b).ok hb).heap
    have hsets : m₂.heap.Sets i name.lexeme v (m₂.heap.setField i name.lexeme v) :=
      .setField (Nat.lt_of_lt_of_le hi hgrows.instances) name.lexeme v
    refine ⟨_,?_,hsets,?_⟩
    · rw [evaluate,bind_of_ok he]
      simp only [bind_of_ok hb]
      rfl
    · rw [getProperty_eq]
      simp only [hsets.value]
      rfl

/-- The parts of a statement that only evaluates `this`. -/
def Stmt.this? : Stmt → Option (ExprId × Token)
  | .expression (.this id keyword) => some (id,keyword)
  | _ => none

theorem Visits.this_first {ss : List Stmt} {id : ExprId} {keyword : Token} (h : Visits r (.stmts (n + 1) ss) m)
    (hss : ss.head?.bind Stmt.this? = some (id,keyword)) : Visits r (.expr n (.this id keyword)) m := by
  obtain ⟨b,hb,hthis⟩ := Option.bind_eq_some_iff.mp hss
  obtain ⟨rest,rfl⟩ := List.head?_eq_some_iff.mp hb
  unfold Stmt.this? at hthis
  split at hthis <;> cases hthis
  exact (h.step .stmts_head).step .expression

/-- The superclass declares `m` twice. An instance of the subclass has the second one, and in its call it is `this`. -/
theorem property_order_inherited :
    ∃ runs programs s r e name m m₁ d id keyword m₂, Reached runs programs s ∧ r ∈ runs ∧
      Visits r (.expr 6 (.get e name)) m ∧ evaluate 5 e m = .ok (.instance ⟨0⟩) m₁ ∧
      m₁.heap.Provides runs "m" ⟨1⟩ (some d) ∧ d.body.length = 1 ∧
      Visits r (.expr 5 (.this id keyword)) m₂ ∧ evaluate 5 (.this id keyword) m₂ = .ok (.instance ⟨0⟩) m₂ := by
  let a : Token := ⟨.identifier,"A",1⟩
  let b : Token := ⟨.identifier,"B",1⟩
  let name : Token := ⟨.identifier,"m",1⟩
  let keyword : Token := ⟨.kwThis,"this",1⟩
  let left : Token := ⟨.leftBrace,"\x7b",1⟩
  let right : Token := ⟨.rightBrace,"\x7d",1⟩
  let paren : Token := ⟨.rightParen,")",1⟩
  let source := "class A \x7b m() \x7b \x7d m() \x7b this; \x7d \x7d class B < A \x7b \x7d B().m();"
  let receiving : FunctionDecl := ⟨name,[],[.expression (.this (.numbered 0) keyword)]⟩
  let object : Expr := .call (.variable (.numbered 2) b) paren []
  let superclass : Stmt := .class a none [⟨name,[],[]⟩,receiving]
  let subclass : Stmt := .class b (some (.variable (.numbered 1) a)) []
  let program : List Stmt := [superclass,subclass,.expression (.call (.get object name) paren [])]
  have htokens : (scan source).tokens =
      [⟨.kwClass,"class",1⟩,a,left,name,⟨.leftParen,"(",1⟩,paren,left,right,
          name,⟨.leftParen,"(",1⟩,paren,left,keyword,⟨.semicolon,";",1⟩,right,right,
        ⟨.kwClass,"class",1⟩,b,⟨.less,"<",1⟩,a,left,right,
        b,⟨.leftParen,"(",1⟩,paren,⟨.dot,".",1⟩,name,⟨.leftParen,"(",1⟩,paren,⟨.semicolon,";",1⟩,.eof 1] := by
    decide +kernel
  have herrors : (scan source).errors = [] := by decide +kernel
  have hprogram : (Reading.ofSource source ⟨0⟩).program = .ok program := by
    simp only [Reading.program,Reading.errors,Reading.ofSource,htokens,herrors]
    cbv
  let s := ((Session.new .unlimited (.startingAt 0)).read source).2
  let r : Run := ⟨8,program,(s.machine.resolve program).2.note (.interpreting 3)⟩
  have hreached : Reached [r] [program] (s.execute 8 program).2 :=
    .single .unlimited (.startingAt 0) 8 hprogram
  have hids : (s.execute 8 program).2.ids.allocated ≤ 2 ^ 32 := by
    rw [Session.execute_ids]
    simp only [s,Session.read,Reading.ofSource,htokens]
    decide +kernel
  let m : Machine := (execute 8 subclass).after ((execute 8 superclass).after r.machine)
  have hdefined : Visits r (.program 8 [.expression (.call (.get object name) paren [])]) m :=
    (Visits.start (r := r)).step (.program_tail (Eval.ok_of_value? (a := .normal) (by decide +kernel)))
      |>.step (.program_tail (Eval.ok_of_value? (a := .normal) (by decide +kernel)))
  have hcall := hdefined.step .program_head |>.step .expression
  have hget : Visits r (.expr 6 (.get object name)) m := hcall.step .callee
  let m₁ : Machine := (evaluate 5 object).after m
  have hobject : evaluate 5 object m = .ok (.instance ⟨0⟩) m₁ := Eval.ok_of_value? (by decide +kernel)
  obtain ⟨hreads,hgets,-⟩ := property_order hreached hids List.mem_cons_self (hget.step .get_object) hobject
  have hmethod : getProperty (.instance ⟨0⟩) name m₁ = .ok (.function ⟨2⟩) ((getProperty (.instance ⟨0⟩) name).after m₁) :=
    Eval.ok_of_value? (by decide +kernel)
  have hfield : (m₁.heap.getInstance ⟨0⟩).fields.find? name.lexeme = none := by decide +kernel
  obtain ⟨d?,hprovides,hread⟩ := hreads name
  rw [hmethod] at hread
  rw [hread.declared hfield] at hprovides
  have hclass : (m₁.heap.getInstance ⟨0⟩).ofClass = ⟨1⟩ := by decide +kernel
  rw [hclass] at hprovides
  have hreceiver := (hgets name hget).2 ⟨2⟩ _ hmethod hfield
  have happly := hcall.step (.invoke (Eval.ok_of_value? (a := .function ⟨2⟩) (by decide +kernel))
    (Eval.ok_of_value? (a := []) (by decide +kernel)) (show _ = some ("m",_) by decide +kernel) (by decide +kernel))
    |>.step .function
  have hthis : Visits r (.expr 5 (.this (.numbered 0) keyword)) _ := (happly.step .body).this_first (by decide +kernel)
  exact ⟨_,_,_,_,_,_,_,_,_,_,_,_,hreached,List.mem_cons_self,hget,hobject,hprovides,by decide +kernel,hthis,
    hreceiver _ List.mem_cons_self _ _ _ _ hthis (.body List.mem_cons_self happly)⟩

end Lox

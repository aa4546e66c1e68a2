import Lox.Proofs.Run.Apply
import Lox.Proofs.Run.Sequence

/-! Expressions and statements that fail by themselves. Their operands are evaluated before that, each of them once
and in their order, and nothing else is done. -/
namespace Lox

open Eval

/-- The expressions are evaluated one after the other: each starts where the one before it has ended. -/
inductive InOrder (n : Nat) : List Expr → Machine → List Value → Machine → Prop
  | nil {m} : InOrder n [] m [] m
  | cons {e es m v m₁ vs m₂} (he : evaluate n e m = .ok v m₁) (hes : InOrder n es m₁ vs m₂) :
    InOrder n (e :: es) m (v :: vs) m₂

/-- The operands of an expression: what it evaluates in this order before it does anything else. -/
def Expr.operands : Expr → List Expr
  | .unary _ e | .get e _ | .set e _ _ | .assign _ _ e => [e]
  | .binary a _ b => [a,b]
  | .call callee _ arguments => callee :: arguments
  | _ => []

/-- An operand is evaluated where those in front of it have ended. -/
def Operand (n : Nat) (e : Expr) (m : Machine) (x : Expr) (m' : Machine) : Prop :=
  ∃ before after vs, e.operands = before ++ x :: after ∧ InOrder n before m vs m'

/-- An expression fails by itself when its operands have these values, on the machine that they leave. -/
inductive Faulty : Expr → List Value → Machine → Error → Prop
  | not_callable {e paren es f vs m} (hf : m.heap.callable? f = none) :
    Faulty (.call e paren es) (f :: vs) m (.runtime .notCallable paren.line)
  | arity {e paren es f vs m name arity} (hf : m.heap.callable? f = some (name,arity)) (hvs : vs.length ≠ arity) :
    Faulty (.call e paren es) (f :: vs) m (.runtime (.arity arity vs.length) paren.line)
  | depth {e paren es f vs m name} (hf : m.heap.callable? f = some (name,vs.length))
    (hdepth : Machine.maxDepth ≤ m.depth) : Faulty (.call e paren es) (f :: vs) m (.stackOverflow paren.line)
  | read {id name m} (hid : m.distances.find? id = none)
    (hglobal : m.heap.get? Heap.globals name.lexeme = none) :
    Faulty (.variable id name) [] m (.runtime (.undefinedVariable name.lexeme) name.line)
  | write {id name e v m} (hid : m.distances.find? id = none)
    (hglobal : m.heap.get? Heap.globals name.lexeme = none) :
    Faulty (.assign id name e) [v] m (.runtime (.undefinedVariable name.lexeme) name.line)
  | write_local {id name e v m d fault} (hid : m.distances.find? id = some d)
    (hlocal : m.heap.getAt m.scope d name.lexeme = .error fault) :
    Faulty (.assign id name e) [v] m (.internal fault)
  | get_object {e name v m} (hv : ∀ i, v ≠ .instance i) :
    Faulty (.get e name) [v] m (.runtime .propertyOfNonInstance name.line)
  | get_property {e name i m} (hi : m.heap.property? i name.lexeme = none) :
    Faulty (.get e name) [.instance i] m (.runtime (.undefinedProperty name.lexeme) name.line)
  | super_property {id keyword method m d c i} (hid : m.distances.find? id = some (d + 1))
    (hc : m.heap.getAt m.scope (d + 1) "super" = .ok (.class c))
    (hi : m.heap.getAt m.scope d "this" = .ok (.instance i)) (hf : m.heap.findMethod? c method.lexeme = none) :
    Faulty (.super id keyword method) [] m (.runtime (.undefinedProperty method.lexeme) method.line)
  | set_object {e name value v m} (hv : ∀ i, v ≠ .instance i) :
    Faulty (.set e name value) [v] m (.runtime .fieldOfNonInstance name.line)
  | negation {op e v m} (hop : op.kind = .minus) (hv : ∀ x, v ≠ .number x) :
    Faulty (.unary op e) [v] m (.runtime .numberOperand op.line)
  | numbers {a op b v w m} (hop : op.kind ∈ [Kind.minus,.star,.slash,.greater,.greaterEqual,.less,.lessEqual])
    (hv : ∀ x y, ¬(v = .number x ∧ w = .number y)) :
    Faulty (.binary a op b) [v,w] m (.runtime .numberOperands op.line)
  | sum {a op b v w m} (hop : op.kind = .plus) (hnumbers : ∀ x y, ¬(v = .number x ∧ w = .number y))
    (hstrings : ∀ s t, ¬(v = .string s ∧ w = .string t)) :
    Faulty (.binary a op b) [v,w] m (.runtime .sumOperands op.line)
  | division {a op b x y m} (hop : op.kind = .slash) (hy : (y == 0) = true) :
    Faulty (.binary a op b) [.number x,.number y] m (.runtime .divisionByZero op.line)

variable {n : Nat} {e : Expr} {es : List Expr} {m m₁ : Machine} {vs : List Value} {err : Error}

theorem InOrder.evaluateEach (h : InOrder n es m vs m₁) : evaluateEach (evaluate n) es m = .ok vs m₁ := by
  induction h with
  | nil => rfl
  | cons he _ ih =>
    refine (bind_of_ok he _).trans ?_
    rw [bind_of_ok ih]
    rfl

theorem InOrder.single {v : Value} (h : InOrder n [e] m [v] m₁) : evaluate n e m = .ok v m₁ := by
  cases h with
  | cons he hes =>
    cases hes with
    | nil => exact he

theorem InOrder.snoc {v : Value} {m₂ : Machine} (h : InOrder n es m vs m₁) (he : evaluate n e m₁ = .ok v m₂) :
    InOrder n (es ++ [e]) m (vs ++ [v]) m₂ := by
  induction h with
  | nil => exact .cons he .nil
  | cons hfirst _ ih => exact .cons hfirst (ih he)

/-! ### Operators -/

theorem onNumbers_error {op : Token} {v w : Value} (hv : ∀ x y, ¬(v = .number x ∧ w = .number y))
    (f : Float → Float → Except Error Value) :
    onNumbers op v w f = .error (.runtime .numberOperands op.line) := by
  cases v <;> cases w <;> first | rfl | exact absurd ⟨rfl,rfl⟩ (hv _ _)

theorem applyBinary_numbers {op : Token} {v w : Value}
    (hop : op.kind ∈ [Kind.minus,.star,.slash,.greater,.greaterEqual,.less,.lessEqual])
    (hv : ∀ x y, ¬(v = .number x ∧ w = .number y)) :
    applyBinary op v w = .error (.runtime .numberOperands op.line) := by
  simp only [List.mem_cons,List.not_mem_nil,or_false] at hop
  rcases hop with hop | hop | hop | hop | hop | hop | hop <;> simp only [applyBinary,hop] <;>
    exact onNumbers_error hv _

theorem applyBinary_sum {op : Token} {v w : Value} (hop : op.kind = .plus)
    (hnumbers : ∀ x y, ¬(v = .number x ∧ w = .number y)) (hstrings : ∀ s t, ¬(v = .string s ∧ w = .string t)) :
    applyBinary op v w = .error (.runtime .sumOperands op.line) := by
  simp only [applyBinary,hop]
  split
  next => exact absurd ⟨rfl,rfl⟩ (hnumbers _ _)
  next => exact absurd ⟨rfl,rfl⟩ (hstrings _ _)
  next => rfl

/-! ### Failing -/

/-- An operator that has no value on these operands fails. -/
theorem binary_fails {a b : Expr} {op : Token} {v w : Value} (herror : applyBinary op v w = .error err)
    (hvs : InOrder n [a,b] m [v,w] m₁) :
    ∃ log, evaluate (n + 1) (.binary a op b) m = .error (.error err) { m₁ with log := log } := by
  cases hvs with
  | cons ha hb =>
    have houtcome : evaluate (n + 1) (.binary a op b) m = outcome (applyBinary op v w) m₁ :=
      (bind_of_ok ha _).trans (bind_of_ok hb.single _)
    rw [houtcome,herror]
    exact ⟨_,rfl⟩

/-- A call fails when the callee cannot be called on the arguments. -/
theorem call_fails {f : Value} {paren : Token} {log : List Event}
    (hcall : Eval.call (executeEach (execute n)) f paren vs m₁ = .error (.error err) { m₁ with log := log })
    (hvs : InOrder n (e :: es) m (f :: vs) m₁) :
    ∃ log, evaluate (n + 1) (.call e paren es) m = .error (.error err) { m₁ with log := log } := by
  cases hvs with
  | cons he hes => exact ⟨log,by rw [evaluate_call paren he hes.evaluateEach,hcall]⟩

/-- Where nothing is read, nothing is there to be assigned to. -/
theorem Heap.holderAt_error {h : Heap} {i : ScopeId} {d : Nat} {name : String} {fault : InternalFault}
    (hget : h.getAt i d name = .error fault) : h.holderAt i d name = .error fault := by
  simp only [getAt,holderAt] at hget ⊢
  cases hlookup : h.lookupAt i d name with
  | ok jv => simp [hlookup,Except.map] at hget
  | error fault' => simpa [hlookup,Except.map] using hget

/-- An assignment fails when the scope that it should change is not found. -/
theorem assign_fails {id : ExprId} {name : Token} {v : Value} (htarget : Eval.target id name m₁ = raise err m₁)
    (hvs : InOrder n [e] m [v] m₁) :
    ∃ log, evaluate (n + 1) (.assign id name e) m = .error (.error err) { m₁ with log := log } :=
  ⟨_,(bind_of_ok hvs.single _).trans (bind_of_error (assign_raise htarget v) _)⟩

namespace Faulty

theorem fails (h : Faulty e vs m₁ err) (hvs : InOrder n e.operands m vs m₁) :
    ∃ log, evaluate (n + 1) e m = .error (.error err) { m₁ with log := log } := by
  cases h with
  | not_callable hf => exact call_fails (by rw [call_eq,hf]; rfl) hvs
  | arity hf hne => exact call_fails (call_arity _ hf hne) hvs
  | depth hf hdepth => exact call_fails (call_overflow _ hf hdepth) hvs
  | @read id name _ hid hglobal =>
    have hread := lookUp_eq id name m₁
    rw [hid] at hread
    simp only [hglobal] at hread
    cases hvs with
    | nil => exact ⟨_,hread⟩
  | @write id name e v _ hid hglobal =>
    have htarget := target_eq id name m₁
    have hholder : m₁.heap.holder? Heap.globals name.lexeme = none := by
      simpa [Heap.holder?,Heap.get?] using hglobal
    rw [hid] at htarget
    simp only [hholder] at htarget
    exact assign_fails htarget hvs
  | @write_local id name e v _ d fault hid hlocal =>
    have htarget := target_eq id name m₁
    rw [hid] at htarget
    simp only [Heap.holderAt_error hlocal] at htarget
    exact assign_fails htarget hvs
  | @get_object e name v _ hv =>
    cases v with
    | «instance» i => exact absurd rfl (hv i)
    | _ => exact ⟨_,bind_of_ok hvs.single _⟩
  | @get_property e name i _ hi =>
    have hget := getProperty_eq i name m₁
    rw [hi] at hget
    exact ⟨_,(bind_of_ok hvs.single _).trans hget⟩
  | @super_property id keyword method _ d c i hid hc hi hf =>
    have hsuper := superMethod_eq keyword method hid hc hi
    rw [hf] at hsuper
    cases hvs with
    | nil => exact ⟨_,hsuper⟩
  | @set_object e name value v _ hv =>
    cases v with
    | «instance» i => exact absurd rfl (hv i)
    | _ => exact ⟨_,bind_of_ok hvs.single _⟩
  | @negation op e v _ hop hv =>
    have herror : applyUnary op v = .error (.runtime .numberOperand op.line) := by
      simp only [applyUnary,hop]
    have houtcome : evaluate (n + 1) (.unary op e) m = outcome (applyUnary op v) m₁ := bind_of_ok hvs.single _
    rw [houtcome,herror]
    exact ⟨_,rfl⟩
  | numbers hop hv => exact binary_fails (applyBinary_numbers hop hv) hvs
  | sum hop hnumbers hstrings => exact binary_fails (applyBinary_sum hop hnumbers hstrings) hvs
  | @division a op b x y _ hop hy =>
    have herror : applyBinary op (.number x) (.number y) = .error (.runtime .divisionByZero op.line) := by
      simp only [applyBinary,hop,onNumbers,if_pos hy]
    exact binary_fails herror hvs

end Faulty

/-! ### What is done before that -/

/-- The arguments of a call are operands, each at its time. -/
theorem Operand.of_exprs {before : List Expr} {us : List Value} {m₀ m' : Machine} {w : Work}
    (hoperands : e.operands = before ++ es) (hbefore : InOrder n before m us m₀) (hw : Part (.exprs n es) m₀ w m') :
    (∃ es', w = .exprs n es') ∨ ∃ x m₂, Operand n e m x m₂ ∧ Part (.expr n x) m₂ w m' := by
  induction es generalizing before us m₀ with
  | nil =>
    cases hw with
    | whole => exact .inl ⟨_,rfl⟩
    | part hs _ => cases hs
  | cons x es ih =>
    cases hw with
    | whole => exact .inl ⟨_,rfl⟩
    | part hs hw =>
      cases hs with
      | exprs_head => exact .inr ⟨x,m₀,⟨before,es,us,hoperands,hbefore⟩,hw⟩
      | exprs_tail hx => exact ih (by simp [hoperands]) (hbefore.snoc hx) hw

/-- Work that an expression starts before it fails by itself: its first operand, or the rest of the operands. -/
theorem Faulty.starts {w : Work} {m' : Machine} (h : Faulty e vs m₁ err) (hvs : InOrder n e.operands m vs m₁)
    (hs : Starts (.expr (n + 1) e) m w m') :
    (∃ x, Operand n e m x m' ∧ w = .expr n x) ∨
      ∃ before es us, e.operands = before ++ es ∧ InOrder n before m us m' ∧ w = .exprs n es := by
  have hfirst {x : Expr} {xs : List Expr} (hx : e.operands = x :: xs) : Operand n e m x m :=
    ⟨[],xs,[],hx,.nil⟩
  cases h with
  | not_callable | arity | depth =>
    cases hvs with
    | cons he hes =>
      cases hs with
      | callee => exact .inl ⟨_,hfirst rfl,rfl⟩
      | arguments he' => exact .inr ⟨[_],_,[_],rfl,.cons he' .nil,rfl⟩
      | invoke he' hes' hf' hdepth' =>
        obtain ⟨rfl,rfl⟩ := EStateM.Result.ok.inj (he.symm.trans he')
        obtain ⟨rfl,rfl⟩ := EStateM.Result.ok.inj (hes.evaluateEach.symm.trans hes')
        simp_all <;> omega
  | read => cases hs
  | write | write_local =>
    cases hs with
    | assign_value => exact .inl ⟨_,hfirst rfl,rfl⟩
  | get_object hv =>
    cases hs with
    | get_object => exact .inl ⟨_,hfirst rfl,rfl⟩
    | get_method he _ =>
      obtain ⟨rfl,rfl⟩ := EStateM.Result.ok.inj (hvs.single.symm.trans he)
      exact absurd rfl (hv _)
  | get_property hi =>
    cases hs with
    | get_object => exact .inl ⟨_,hfirst rfl,rfl⟩
    | get_method he hf =>
      obtain ⟨heq,rfl⟩ := EStateM.Result.ok.inj (hvs.single.symm.trans he)
      obtain rfl := Value.instance.inj heq
      simp [hi] at hf
  | super_property hid hc hi hf =>
    cases hvs with
    | nil =>
      cases hs with
      | super_method hid' hc' hi' hf' => simp_all
  | set_object hv =>
    cases hs with
    | set_object => exact .inl ⟨_,hfirst rfl,rfl⟩
    | set_value he =>
      obtain ⟨rfl,rfl⟩ := EStateM.Result.ok.inj (hvs.single.symm.trans he)
      exact absurd rfl (hv _)
  | negation =>
    cases hs with
    | unary => exact .inl ⟨_,hfirst rfl,rfl⟩
  | numbers | sum | division =>
    cases hs with
    | binary_left => exact .inl ⟨_,hfirst rfl,rfl⟩
    | binary_right ha => exact .inl ⟨_,⟨[_],[],[_],rfl,.cons ha .nil⟩,rfl⟩

/-- Nothing is done but to evaluate operands. -/
theorem Faulty.parts {w : Work} {m' : Machine} (h : Faulty e vs m₁ err) (hvs : InOrder n e.operands m vs m₁)
    (hw : Part (.expr (n + 1) e) m w m') :
    (w = .expr (n + 1) e ∧ m' = m) ∨ (∃ es, w = .exprs n es) ∨
      ∃ x m₀, Operand n e m x m₀ ∧ Part (.expr n x) m₀ w m' := by
  cases hw with
  | whole => exact .inl ⟨rfl,rfl⟩
  | part hs hw =>
    rcases h.starts hvs hs with ⟨x,hx,rfl⟩ | ⟨before,es,us,hoperands,hbefore,rfl⟩
    · exact .inr (.inr ⟨x,_,hx,hw⟩)
    · exact .inr (Operand.of_exprs hoperands hbefore hw)

/-! ### Classes -/

/-- The token that is blamed when a superclass is not a class. -/
def superclassToken (name : Token) : Expr → Token
  | .variable _ parent => parent
  | _ => name

theorem superclassOf_other {evaluate : Expr → Eval Value} (name : Token) {v : Value} (he : evaluate e m = .ok v m₁)
    (hv : ∀ c, v ≠ .class c) : Eval.superclassOf evaluate name (some e) m =
      (Eval.runtime .superclassNotClass (superclassToken name e) : Eval (Option ClassId)) m₁ := by
  refine (bind_of_ok he _).trans ?_
  cases v with
  | «class» c => exact absurd rfl (hv c)
  | _ => cases e <;> rfl

/-- Reading a name changes nothing. -/
theorem variable_same {id : ExprId} {name : Token} {v : Value} (h : evaluate n (.variable id name) m = .ok v m₁) :
    m₁ = m := by
  cases n with
  | zero => cases h
  | succ n =>
    have hread : Eval.lookUp id name m = .ok v m₁ := h
    rw [lookUp_eq] at hread
    cases hid : m.distances.find? id with
    | some d =>
      cases hget : m.heap.getAt m.scope d name.lexeme <;> simp only [hid,hget] at hread <;> cases hread
      rfl
    | none =>
      cases hget : m.heap.get? Heap.globals name.lexeme <;> simp only [hid,hget] at hread <;> cases hread
      rfl

theorem class_starts {name : Token} {parent : Expr} {methods : List FunctionDecl} {v : Value} {w : Work} {m' : Machine}
    (he : evaluate n parent (m.note (.classDefined name.lexeme)) = .ok v m₁) (hv : ∀ c, v ≠ .class c)
    (hs : Starts (.stmt (n + 1) (.class name (some parent) methods)) m w m') :
    w = .expr n parent ∧ m' = m.note (.classDefined name.lexeme) := by
  cases hs with
  | superclass => exact ⟨rfl,rfl⟩
  | class_derived he' =>
    obtain ⟨rfl,-⟩ := EStateM.Result.ok.inj (he.symm.trans he')
    exact absurd rfl (hv _)

/-- An expression that fails by itself leaves everything but the log as its operands have left it, and nothing has
been done but to evaluate these. A class whose superclass is not a class leaves everything but the log as the evaluation
of the superclass has left it. If the superclass is given by its name, that is as before. -/
theorem failures_change_nothing (n : Nat) (m : Machine) :
    (∀ e vs m₁ err, InOrder n e.operands m vs m₁ → Faulty e vs m₁ err →
      (∃ log, evaluate (n + 1) e m = .error (.error err) { m₁ with log := log }) ∧
      ∀ w m', Part (.expr (n + 1) e) m w m' → (w = .expr (n + 1) e ∧ m' = m) ∨ (∃ es, w = .exprs n es) ∨
        ∃ x m₀, Operand n e m x m₀ ∧ Part (.expr n x) m₀ w m') ∧
    ∀ name parent methods v m₁, evaluate n parent (m.note (.classDefined name.lexeme)) = .ok v m₁ →
      (∀ c, v ≠ .class c) →
      (∃ log, execute (n + 1) (.class name (some parent) methods) m =
        .error (.error (.runtime .superclassNotClass (superclassToken name parent).line)) { m₁ with log := log }) ∧
      (∀ id t, parent = .variable id t → m₁ = m.note (.classDefined name.lexeme)) ∧
      ∀ w m', Part (.stmt (n + 1) (.class name (some parent) methods)) m w m' →
        (w = .stmt (n + 1) (.class name (some parent) methods) ∧ m' = m) ∨
          Part (.expr n parent) (m.note (.classDefined name.lexeme)) w m' := by
  constructor
  · intro e vs m₁ err hvs hfaulty
    exact ⟨hfaulty.fails hvs,fun w m' hw => hfaulty.parts hvs hw⟩
  · intro name parent methods v m₁ he hv
    refine ⟨⟨_,bind_of_error (superclassOf_other name he hv) _⟩,?_,fun w m' hw => ?_⟩
    · rintro id t rfl
      exact variable_same he
    · cases hw with
      | whole => exact .inl ⟨rfl,rfl⟩
      | part hs hw =>
        obtain ⟨rfl,rfl⟩ := class_starts he hv hs
        exact .inr hw

/-- A function is called with too few arguments, and taken for a superclass. -/
theorem failures_change_nothing_arity :
    let f : Token := ⟨.identifier,"f",1⟩
    let paren : Token := ⟨.rightParen,")",2⟩
    let called : Stmt := .print (.literal (.string "called"))
    let declaration : FunctionDecl := ⟨f,[⟨.identifier,"a",1⟩,⟨.identifier,"b",1⟩],[called]⟩
    let h := (Heap.initial.addFunction ⟨declaration,Heap.globals,false⟩).2
    let m : Machine := { Machine.initial .unlimited (.startingAt 0) with
      heap := h.define Heap.globals "f" (.function ⟨0⟩) }
    let read : Expr := .variable (.numbered 0) f
    (∃ log, evaluate 2 (.call read paren [.literal .nil]) m =
      .error (.error (.runtime (.arity 2 1) 2)) { m with log := log }) ∧
    ∃ log, execute 2 (.class f (some read) []) m =
      .error (.error (.runtime .superclassNotClass 1)) { m with log := log } := by
  intro f paren called declaration h m read
  obtain ⟨hexpr,hclass⟩ := failures_change_nothing 1 m
  have hvs : InOrder 1 [read,.literal .nil] m [.function ⟨0⟩,.nil] m := .cons rfl (.cons rfl .nil)
  have hcallable : m.heap.callable? (.function ⟨0⟩) = some ("f",2) := rfl
  obtain ⟨hcall,-⟩ := hexpr (.call read paren [.literal .nil]) _ m _ hvs (.arity hcallable (by decide))
  obtain ⟨⟨log,hfails⟩,hsame,-⟩ := hclass f read [] (.function ⟨0⟩) _ rfl (by simp)
  exact ⟨hcall,_,hfails⟩

end Lox

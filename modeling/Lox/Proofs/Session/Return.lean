import Lox.Proofs.Run.Activity
import Lox.Proofs.Session.Construction
import Mathlib

/-! What a return statement does: it ends the innermost call, and the caller goes on with the value. -/
namespace Lox

open Eval

/-- What a return statement gives: `nil`, if it has no expression. -/
def returnValue (n : Nat) : Option Expr → Eval Value
  | none => return .nil
  | some e => evaluate n e

/-- The call expression has called the function, as its callee or as the initializer of a new instance. -/
inductive Caller (n : Nat) (f : FunctionId) (vs : List Value) (m : Machine) (call : Expr) (m₀ : Machine) : Prop
  | called {callee paren m₁} (hcall : Starts (.expr (n + 1) call) m₀ (.invoke n callee paren vs) m₁)
    (happly : Starts (.invoke n callee paren vs) m₁ (.apply n f vs) m)

variable {runs : List Run} {programs : List (List Stmt)} {s : Session} {r : Run} {w : Work} {m m₀ m₁ m' : Machine}
  {n k : Nat} {f : FunctionId} {vs : List Value} {v : Value} {keyword : Token} {e : Option Expr} {call : Expr} {b : Stmt}
  {bs : List Stmt}

theorem execute_return (n : Nat) (keyword : Token) (e : Option Expr) (m : Machine) :
    execute (n + 1) (.return keyword e) m = (returnValue n e >>= fun v => pure (Flow.returned v)) m := by
  cases e <;> rfl

/-- Every call of a function comes from a call expression. -/
theorem Visits.caller (h : Visits r (.apply n f vs) m) :
    ∃ call m₀, Visits r (.expr (n + 1) call) m₀ ∧ Caller n f vs m call m₀ := by
  cases h with
  | @step w₁ m₁ _ _ h happly =>
    have hinvoke : ∃ callee paren, w₁ = .invoke n callee paren vs := by
      cases happly <;> exact ⟨_,_,rfl⟩
    obtain ⟨callee,paren,rfl⟩ := hinvoke
    cases h with
    | @step w₀ m₀ _ _ h hcall =>
      have hexpr : ∃ call, w₀ = .expr (n + 1) call := by
        cases hcall
        exact ⟨_,rfl⟩
      obtain ⟨call,rfl⟩ := hexpr
      exact ⟨call,m₀,h,.called hcall happly⟩

namespace Reached

variable (hs : Reached runs programs s)
include hs

/-- Statements of the program itself cannot return. -/
theorem not_returns (hids : s.ids.allocated ≤ 2 ^ 32) (hr : r ∈ runs) (hv : Visits r (.program n (b :: bs)) m) :
    ¬b.Returns := by
  intro hreturns
  obtain ⟨earlier,hearlier,hmet⟩ := (hs.orderly hids).visits hr hv
  obtain ⟨-,p,hp,hpart⟩ := hmet.typed
  exact hpart.cons.1.returns_inside ((hs.orderly hids).started p (hearlier hp)).2 hreturns rfl rfl

/-- What a class calls on a new instance is an initializer. -/
theorem construction_initializer {c : ClassId} {paren : Token} (hr : r ∈ runs)
    (hv : Visits r (.invoke n (.class c) paren vs) m) (hf : (m.constructing c).heap.findMethod? c "init" = some f)
    (i : InstanceId) :
    (((m.constructing c).binding f i).heap.getFunction ((m.constructing c).heap.bind f i).1).isInitializer = true := by
  have hnew := Heap.getFunction_bind (m.constructing c).heap f i
  have hclasses : (m.constructing c).heap.classes = m.heap.classes := rfl
  have hmade := Heap.findMethod?_congr hclasses c "init"
  obtain ⟨hknown,hm⟩ := hs.visits_whole hr hv
  rw [Machine.binding,hnew]
  exact hm.initializer (hs.built hr hv) hknown.1 (hmade.symm.trans hf)

/-- A body that has returned gives its value to the call, or the receiver if it is that of an initializer. -/
theorem returned_result (hids : s.ids.allocated ≤ 2 ^ 32) (hr : r ∈ runs) (hv : Visits r (.apply n f vs) m)
    (hbody : executeEach (execute n) (m.heap.getFunction f).declaration.body (m.calling f vs) = .ok (.returned v) m₁) :
    ∃ u, Eval.apply (executeEach (execute n)) f vs m = .ok u { m₁ with scope := m.scope } ∧
      ((m.heap.getFunction f).isInitializer = false → u = v) ∧
      ((m.heap.getFunction f).isInitializer = true → ∃ i, u = .instance i ∧ m.heap.BoundTo f i) := by
  cases hinit : (m.heap.getFunction f).isInitializer with
  | false => exact ⟨v,(apply_ok hbody).trans (callResult_plain hinit),fun _ => rfl,by simp⟩
  | true =>
    obtain ⟨i,hi⟩ := hs.initializer_bound hids hr hv hinit
    exact ⟨.instance i,hs.initializer_result hids hr hv hi hinit hbody,by simp,fun _ => ⟨i,rfl,hi⟩⟩

/-- The value of a call of a function is that of the call expression. -/
theorem caller_result (hids : s.ids.allocated ≤ 2 ^ 32) (hr : r ∈ runs) (hv : Visits r (.expr (n + 1) call) m₀)
    (hcaller : Caller n f vs m call m₀)
    (happly : Eval.apply (executeEach (execute n)) f vs m = .ok v m') :
    evaluate (n + 1) call m₀ = .ok v { m' with scope := m₀.scope, depth := m₀.depth } := by
  obtain @⟨callee,paren,m₁,hcall,hstarts⟩ := hcaller
  -- A class does not pass on what its initializer gives, but that is the same instance.
  have hinvoke : Eval.invoke (executeEach (execute n)) callee paren vs m₁ = .ok v m' := by
    cases hstarts with
    | function => exact happly
    | @construction _ c _ _ _ f hf =>
      have hinit := hs.construction_initializer hr (hv.step hcall) hf ⟨m₁.heap.instances.size⟩
      have hbound := Heap.BoundTo.bind (m₁.constructing c).heap f ⟨m₁.heap.instances.size⟩
      obtain ⟨flow,m₂,hbody,-⟩ := of_apply_ok happly
      have hresult := hs.initializer_result hids hr ((hv.step hcall).step (.construction hf)) hbound hinit hbody
      obtain ⟨rfl,-⟩ := EStateM.Result.ok.inj (happly.symm.trans hresult)
      rw [Eval.invoke,construct_some _ vs hf,bind_of_ok happly]
      rfl
  have hresult : evaluate (n + 1) call m₀ = .ok v { m' with depth := m'.depth - 1 } := by
    cases hcall with
    | invoke he hes hf hdepth => rw [evaluate_call paren he hes,call_invokes _ hf hdepth,nested_ok hinvoke]
  have hback : m'.scope = m₀.scope ∧ m'.depth - 1 = m₀.depth :=
    ⟨(((restoring (n + 1)).expr call).ok hresult).scope,(((restoring (n + 1)).expr call).ok hresult).depth⟩
  rw [hresult,hback.2,← hback.1]

end Reached

/-- A return statement is the last one of the statements and conditions of the call that it is executed in. The call ends
with the value, or with its receiver if it is that of an initializer, and the expression that has called goes on with this
in its own scope. -/
structure EndsCall (r : Run) (n : Nat) (keyword : Token) (e : Option Expr) (m : Machine) (k : Nat) (f : FunctionId)
    (vs : List Value) (m₀ : Machine) : Prop where
  innermost : m.depth = m₀.depth
  complete : ∀ w m', Executes (.apply k f vs) m₀ w m' → w.trace m' ⊆ activity k f vs m₀
  last : ∃ before, activity k f vs m₀ = before ++ [(.stmt (n + 1) (.return keyword e),m)] ∧ ∀ p ∈ before, ¬p.1.IsReturn
  caller : ∃ call m₁, Visits r (.expr (k + 1) call) m₁ ∧ Caller k f vs m₀ call m₁
  value : ∀ v m', returnValue n e m = .ok v m' → ∃ u, ((m₀.heap.getFunction f).isInitializer = false → u = v) ∧
    ((m₀.heap.getFunction f).isInitializer = true → ∃ i, u = .instance i ∧ m₀.heap.BoundTo f i) ∧
    ∀ call m₁, Visits r (.expr (k + 1) call) m₁ → Caller k f vs m₀ call m₁ →
      evaluate (k + 1) call m₁ = .ok u { m' with scope := m₁.scope, depth := m₁.depth }

theorem Reached.ends_call (hs : Reached runs programs s) (hids : s.ids.allocated ≤ 2 ^ 32) (hr : r ∈ runs)
    (happly : Visits r (.apply k f vs) m₀) (hexecutes : Executes (.apply k f vs) m₀ (.stmt (n + 1) (.return keyword e)) m) :
    EndsCall r n keyword e m k f vs m₀ := by
  have hmem : (Work.stmt (n + 1) (.return keyword e),m) ∈ activity k f vs m₀ := hexecutes.trace List.mem_cons_self
  obtain ⟨hlast,houtcome⟩ := (concluding k).each _ _ _ _ _ _ hmem
  refine ⟨(activity_within k f vs m₀ _ hmem).2,fun w m' h => h.trace,hlast,happly.caller,fun v m' hvalue => ?_⟩
  have hreturn : execute (n + 1) (.return keyword e) m = .ok (.returned v) m' := by
    rw [execute_return,bind_of_ok hvalue]
    rfl
  rw [hreturn] at houtcome
  obtain ⟨u,hresult,hplain,hinit⟩ := hs.returned_result hids hr happly houtcome
  refine ⟨u,hplain,hinit,fun call m₁ hcall hcaller => ?_⟩
  have hcalled := hs.caller_result hids hr hcall hcaller hresult
  exact hcalled

/-- No statement of the program itself returns. Every return statement is executed in a call, and it ends this call. -/
theorem return_ends_call (hs : Reached runs programs s) (hids : s.ids.allocated ≤ 2 ^ 32) (hr : r ∈ runs) :
    (∀ n b bs m flow m', Visits r (.program n (b :: bs)) m → execute n b m = .ok flow m' → flow = .normal) ∧
      ∀ n keyword e m, Visits r (.stmt (n + 1) (.return keyword e)) m →
        (∃ k f vs m₀, Visits r (.apply k f vs) m₀ ∧
          Executes (.apply k f vs) m₀ (.stmt (n + 1) (.return keyword e)) m) ∧
        ∀ k f vs m₀, Visits r (.apply k f vs) m₀ →
          Executes (.apply k f vs) m₀ (.stmt (n + 1) (.return keyword e)) m → EndsCall r n keyword e m k f vs m₀ := by
  refine ⟨fun n b bs m flow m' hv hb => ?_,fun n keyword e m hv => ⟨?_,fun k f vs m₀ => hs.ends_call hids hr⟩⟩
  · cases flow with
    | normal => rfl
    | returned v => exact absurd (execute_returned hb) (hs.not_returns hids hr hv)
  · obtain hcall | ⟨k,b,bs,m₀,hprogram,hb⟩ := hv.around trivial
    · exact hcall
    · exact absurd (hb .here) (hs.not_returns hids hr hprogram)

/-- A return statement in a loop ends the call that the loop is executed in. -/
theorem return_ends_call_loop :
    ∃ runs programs s r keyword e m m' f call m₀ m₁, Reached runs programs s ∧ r ∈ runs ∧
      Visits r (.stmt 4 (.return keyword e)) m ∧ returnValue 3 e m = .ok (.boolean true) m' ∧
      Executes (.apply 6 f []) m₀ (.stmt 4 (.return keyword e)) m ∧ EndsCall r 3 keyword e m 6 f [] m₀ ∧
      Caller 6 f [] m₀ call m₁ ∧
      evaluate 7 call m₁ = .ok (.boolean true) { m' with scope := m₁.scope, depth := m₁.depth } := by
  let f : Token := ⟨.identifier,"f",1⟩
  let keyword : Token := ⟨.kwReturn,"return",1⟩
  let yes : Token := ⟨.kwTrue,"true",1⟩
  let left : Token := ⟨.leftBrace,"\x7b",1⟩
  let right : Token := ⟨.rightBrace,"\x7d",1⟩
  let paren : Token := ⟨.rightParen,")",1⟩
  let source := "fun f() \x7b while (true) \x7b return true; \x7d \x7d f();"
  let returning : Stmt := .return keyword (some (.literal (.boolean true)))
  let body : List Stmt := [.loop (.literal (.boolean true)) (.block [returning])]
  let call : Expr := .call (.variable (.numbered 0) f) paren []
  let program : List Stmt := [.function ⟨f,[],body⟩,.expression call]
  have htokens : (scan source).tokens =
      [⟨.kwFun,"fun",1⟩,f,⟨.leftParen,"(",1⟩,paren,left,⟨.kwWhile,"while",1⟩,⟨.leftParen,"(",1⟩,yes,paren,left,
        keyword,yes,⟨.semicolon,";",1⟩,right,right,f,⟨.leftParen,"(",1⟩,paren,⟨.semicolon,";",1⟩,.eof 1] := by
    decide +kernel
  have herrors : (scan source).errors = [] := by decide +kernel
  have hprogram : (Reading.ofSource source ⟨0⟩).program = .ok program := by
    simp only [Reading.program,Reading.errors,Reading.ofSource,htokens,herrors]
    cbv
  let s := ((Session.new .unlimited (.startingAt 0)).read source).2
  let r : Run := ⟨8,program,(s.machine.resolve program).2.note (.interpreting 2)⟩
  have hreached : Reached [r] [program] (s.execute 8 program).2 :=
    .single .unlimited (.startingAt 0) 8 hprogram
  have hids : (s.execute 8 program).2.ids.allocated ≤ 2 ^ 32 := by
    rw [Session.execute_ids]
    simp only [s,Session.read,Reading.ofSource,htokens]
    decide +kernel
  let m : Machine := (execute 8 (.function ⟨f,[],body⟩)).after r.machine
  have hdefined : Visits r (.program 8 [.expression call]) m :=
    (Visits.start (r := r)).step (.program_tail (Eval.ok_of_value? (a := .normal) (by decide +kernel)))
  have hcall := hdefined.step .program_head |>.step .expression
  let m₁ : Machine := (evaluate 6 (.variable (.numbered 0) f)).after m
  have hcallee : evaluate 6 (.variable (.numbered 0) f) m = .ok (.function ⟨0⟩) m₁ :=
    Eval.ok_of_value? (by decide +kernel)
  have hcallable : m₁.heap.callable? (.function ⟨0⟩) = some ("f",0) := by decide +kernel
  have hinvoke : Starts (.expr 7 call) m (.invoke 6 (.function ⟨0⟩) paren []) m₁.deeper :=
    .invoke hcallee rfl hcallable (by decide +kernel)
  have happly := hcall.step hinvoke |>.step .function
  have hbody : Starts (.apply 6 ⟨0⟩ []) m₁.deeper (.stmts 6 body) (m₁.deeper.calling ⟨0⟩ []) := .body
  have hloop := ((Executes.itself.step hbody trivial).step .stmts_head trivial).step .loop trivial
  have hblock := (hloop.step (.loop_body rfl rfl) trivial).step .block trivial
  have hexecutes := hblock.step .stmts_head trivial
  have hreturn := ((((happly.step hbody).step .stmts_head).step .loop).step (.loop_body rfl rfl)).step .block
    |>.step .stmts_head
  have hends := ((return_ends_call hreached hids List.mem_cons_self).2 _ _ _ _ hreturn).2 _ _ _ _ happly hexecutes
  obtain ⟨u,hplain,-,hvalue⟩ := hends.value _ _ rfl
  have hcaller : Caller 6 ⟨0⟩ [] m₁.deeper call m := .called hinvoke .function
  obtain rfl := hplain (by decide +kernel)
  exact ⟨_,_,_,_,_,_,_,_,_,_,_,_,hreached,List.mem_cons_self,hreturn,rfl,hexecutes,hends,hcaller,hvalue _ _ hcall hcaller⟩

end Lox

import Lox.Proofs.Run.Seat
import Lox.Proofs.Session.Teardown

/-! What `super` stands for: the superclass that the innermost class around it had when it was defined, with the
receiver of the method around it. -/
namespace Lox

open Eval

variable {runs : List Run} {programs : List (List Stmt)} {s : Session} {r : Run} {w : Work} {m m' : Machine}
  {program : List Stmt} {budget n : Nat} {id : ExprId} {keyword method : Token}

/-! ### A session in time -/

theorem Machine.interpret_heap (m : Machine) (budget : Nat) (program : List Stmt) :
    (m.interpret budget program).2.heap =
      ((executeProgram budget program).after (m.note (.interpreting program.length))).heap := by
  simp only [interpret,Eval.after]
  cases executeProgram budget program (m.note (.interpreting program.length)) <;> exact (finish_eq _ _).1

theorem Orderly.execute_course {h₀ : Heap} (h : Orderly runs programs s) (hprogram : program ∈ programs)
    (hcourse : Course (Done runs) h₀ s.machine.heap) :
    Course (Done (s.starts budget program ++ runs)) h₀ (s.execute budget program).2.machine.heap := by
  rw [Session.execute_machine,Session.starts]
  by_cases hempty : (s.machine.resolve program).1.isEmpty
  · rw [if_pos hempty,if_pos hempty]
    have haccepted : Accepted program := accepted_iff.mp (List.isEmpty_iff.mp hempty)
    have htabled : Tabled program (s.machine.resolve program).2.distances :=
      .insertAll h.entered h.apart hprogram hprogram (.inl rfl)
    have hmet := (h.resolved hprogram).met hprogram haccepted htabled budget
    have hrun := (sequenced _ _ budget).program hmet
    rw [Machine.interpret_heap]
    refine (hcourse.trans hrun).mono ?_
    rintro w m ⟨r,hr,hw⟩
    rcases List.mem_append.mp hr with hr | hr
    · obtain rfl := List.mem_singleton.mp hr
      exact .inr hw.part
    · exact .inl ⟨r,hr,hw⟩
  · rw [if_neg hempty,if_neg hempty]
    exact hcourse

/-- Everything that is done in a session is done in some order. -/
theorem Reached.course (h : Reached runs programs s) (hids : s.ids.allocated ≤ 2 ^ 32) :
    ∃ h₀, Course (Done runs) h₀ s.machine.heap := by
  induction h with
  | new output clock => exact ⟨_,(Course.of_retains (.refl _)).mono fun w m ⟨r,hr,_⟩ => by cases hr⟩
  | parsed _ hs ih =>
    have hparses := Session.parse_parses hs
    exact hparses.heap ▸ ih (Nat.le_trans hparses.ids hids)
  | rejected _ hs ih =>
    have hparses := Session.parse_parses hs
    exact hparses.heap ▸ ih (Nat.le_trans hparses.ids hids)
  | executed budget h hprogram ih =>
    rw [Session.execute_ids] at hids
    obtain ⟨h₀,hcourse⟩ := ih hids
    exact ⟨h₀,(h.orderly hids).execute_course hprogram hcourse⟩
  | @run _ _ s source _ _ budget h hs ih =>
    rw [Session.run_ok hs] at hids ⊢
    rw [Session.execute_ids] at hids
    have hparses := (s.announce_parses source).trans (Session.parse_parses hs)
    obtain ⟨h₀,hcourse⟩ := ih (Nat.le_trans hparses.ids hids)
    have horderly := ((h.orderly (Nat.le_trans hparses.ids hids)).parses (s.announce_parses source)).add
      (Session.parse_parses hs) (Session.parse_regular hs) hids
    exact ⟨h₀,horderly.execute_course List.mem_cons_self (hparses.heap.symm ▸ hcourse)⟩
  | @run_rejected _ _ s source _ _ budget _ hs ih =>
    rw [Session.run_error hs] at hids ⊢
    have hparses := (s.announce_parses source).trans (Session.parse_parses hs)
    exact hparses.heap ▸ ih (Nat.le_trans hparses.ids hids)

/-! ### Evaluating `super` -/

/-- Whenever `super` is evaluated, the innermost class around it is a subclass `D`. The method is that of the nearest
class upward that has one of this name, starting with the class that was given as the superclass when `D` was defined;
its classes are what they were then. The method comes back bound to the receiver around this point. If no class upward
has the method, this is an error. -/
theorem super_lexical (h : Reached runs programs s) (hids : s.ids.allocated ≤ 2 ^ 32) (hr : r ∈ runs)
    (hvisits : Visits r (.expr (n + 1) (.super id keyword method)) m) :
    ∃ place D methods d parent i m', Located runs id "super" place (some (d + 1)) ∧
      InSubclass D methods place.sites d ∧ Defined runs D methods parent m' ∧
      m.heap.ancestor m.scope (d + 1) = .ok ⟨m'.heap.scopes.size⟩ ∧ m'.heap.Retains m.heap ∧
      m.heap.Nearest "super" m.scope (.class parent) ∧ m.heap.Nearest "this" m.scope (.instance i) ∧
      ((∃ f, m.heap.Inherits method.lexeme parent (some f) ∧
          evaluate (n + 1) (.super id keyword method) m = .ok (.function (m.heap.bind f i).1)
            ((m.note (.superFound method.lexeme (m.heap.getClass parent).name keyword.line)).binding f i)) ∨
        (m.heap.Inherits method.lexeme parent none ∧ evaluate (n + 1) (.super id keyword method) m =
          Eval.runtime (.undefinedProperty method.lexeme) method m)) := by
  have horderly := h.orderly hids
  obtain ⟨h₀,hcourse⟩ := h.course hids
  have hdone : Done runs (.expr (n + 1) (.super id keyword method)) m := ⟨r,hr,hvisits⟩
  obtain ⟨earlier,hearlier,hmet⟩ := horderly.visits hr hvisits
  obtain ⟨c,hat,p,hp,hpart⟩ := hmet.typed
  obtain ⟨hrecorded,hclass⟩ := hpart.super (hat.accepted p hp)
  obtain ⟨D,methods,d,-,hsites,hdepth,-⟩ := hat.coherent.superclass hclass
  have hlocated : Located runs id "super" c.place (some (d + 1)) :=
    horderly.located (hearlier hp) hrecorded.place (hdepth ▸ hrecorded.finding)
  obtain ⟨i,parent,m',hseat,hdefined,hretains⟩ := hcourse.seat hdone
    (fun r' hr' w' m' hv => let ⟨earlier,_,hmet⟩ := horderly.visits hr' hv; ⟨earlier,hmet⟩) hsites
    (hat.chain.mono hearlier) rfl
  have hancestor : m.heap.ancestor m.scope (d + 1) = .ok ⟨m'.heap.scopes.size⟩ := hseat.superclass (d + 1)
  obtain ⟨l,hl,hthis⟩ := hseat.receiver d
  have hfind : m.distances.find? id = some (d + 1) := (hat.tabled p hp _ _ _ hrecorded.finding).trans hdepth
  have hsuper_at : m.heap.getAt m.scope (d + 1) "super" = .ok (.class parent) := by
    simp [Heap.getAt,Heap.lookupAt,hancestor,hseat.holds,Except.map]
  have hthis_at : m.heap.getAt m.scope d "this" = .ok (.instance i) := by
    simp [Heap.getAt,Heap.lookupAt,Heap.ancestor,hl,hthis,Except.map]
  have hresult : evaluate (n + 1) (.super id keyword method) m = _ :=
    superMethod_eq keyword method hfind hsuper_at hthis_at
  have hinherits := Heap.inherits_findMethod? ((hcourse.retained hdone).ordered h.ordered) parent method.lexeme
  refine ⟨c.place,D,methods,d,parent,i,m',hlocated,hsites,hdefined,hancestor,hretains,hseat.super,hseat.this,?_⟩
  cases hfound : m.heap.findMethod? parent method.lexeme with
  | some f =>
    rw [hfound] at hinherits hresult
    exact .inl ⟨f,hinherits,hresult⟩
  | none =>
    rw [hfound] at hinherits hresult
    exact .inr ⟨hinherits,hresult⟩

/-- The value that a computation gives. -/
def Eval.value? {α : Type} (x : Eval α) (m : Machine) : Option α :=
  match x m with
  | .ok a _ => some a
  | .error _ _ => none

theorem Eval.ok_of_value? {α : Type} {x : Eval α} {a : α} (h : x.value? m = some a) : x m = .ok a (x.after m) := by
  simp only [Eval.value?,Eval.after] at h ⊢
  cases hx : x m <;> simp_all

/-- The parts of a statement that only evaluates `super`. -/
def Stmt.super? : Stmt → Option (ExprId × Token × Token)
  | .expression (.super id keyword method) => some (id,keyword,method)
  | _ => none

theorem Visits.super_first {ss : List Stmt} (h : Visits r (.stmts (n + 1) ss) m)
    (hss : ss.head?.bind Stmt.super? = some (id,keyword,method)) : Visits r (.expr n (.super id keyword method)) m := by
  obtain ⟨b,hb,hsuper⟩ := Option.bind_eq_some_iff.mp hss
  obtain ⟨rest,rfl⟩ := List.head?_eq_some_iff.mp hb
  unfold Stmt.super? at hsuper
  split at hsuper <;> cases hsuper
  exact (h.step .stmts_head).step .expression

/-- A method of `B` that is called on an instance of the subclass `C` gets its own superclass's method. -/
theorem super_lexical_inherited :
    ∃ runs programs s r id keyword method m i f, Reached runs programs s ∧ r ∈ runs ∧
      Visits r (.expr 5 (.super id keyword method)) m ∧
      (m.heap.getClass (m.heap.getInstance i).ofClass).name = "C" ∧
      m.heap.Nearest "super" m.scope (.class ⟨0⟩) ∧ m.heap.Nearest "this" m.scope (.instance i) ∧
      m.heap.Inherits "m" ⟨0⟩ (some f) := by
  let a : Token := ⟨.identifier,"A",1⟩
  let b : Token := ⟨.identifier,"B",1⟩
  let c : Token := ⟨.identifier,"C",1⟩
  let name : Token := ⟨.identifier,"m",1⟩
  let keyword : Token := ⟨.kwSuper,"super",1⟩
  let left : Token := ⟨.leftBrace,"\x7b",1⟩
  let right : Token := ⟨.rightBrace,"\x7d",1⟩
  let paren : Token := ⟨.rightParen,")",1⟩
  let source := "class A \x7b m() \x7b \x7d \x7d class B < A \x7b m() \x7b super.m; \x7d \x7d " ++
    "class C < B \x7b \x7d C().m();"
  let calling : FunctionDecl := ⟨name,[],[.expression (.super (.numbered 1) keyword name)]⟩
  let program : List Stmt := [.class a none [⟨name,[],[]⟩],.class b (some (.variable (.numbered 0) a)) [calling],
    .class c (some (.variable (.numbered 2) b)) [],
    .expression (.call (.get (.call (.variable (.numbered 3) c) paren []) name) paren [])]
  have htokens : (scan source).tokens =
      [⟨.kwClass,"class",1⟩,a,left,name,⟨.leftParen,"(",1⟩,paren,left,right,right,
        ⟨.kwClass,"class",1⟩,b,⟨.less,"<",1⟩,a,left,name,⟨.leftParen,"(",1⟩,paren,left,
          keyword,⟨.dot,".",1⟩,name,⟨.semicolon,";",1⟩,right,right,
        ⟨.kwClass,"class",1⟩,c,⟨.less,"<",1⟩,b,left,right,
        c,⟨.leftParen,"(",1⟩,paren,⟨.dot,".",1⟩,name,⟨.leftParen,"(",1⟩,paren,⟨.semicolon,";",1⟩,.eof 1] := by
    decide +kernel
  have herrors : (scan source).errors = [] := by decide +kernel
  have hprogram : (Reading.ofSource source ⟨0⟩).program = .ok program := by
    simp only [Reading.program,Reading.errors,Reading.ofSource,htokens,herrors]
    cbv
  let s := ((Session.new .unlimited (.startingAt 0)).read source).2
  let r : Run := ⟨8,program,(s.machine.resolve program).2.note (.interpreting 4)⟩
  have hreached : Reached [r] [program] (s.execute 8 program).2 :=
    .single .unlimited (.startingAt 0) 8 hprogram
  have hids : (s.execute 8 program).2.ids.allocated ≤ 2 ^ 32 := by
    rw [Session.execute_ids]
    simp only [s,Session.read,Reading.ofSource,htokens]
    decide +kernel
  have hdefined := (Visits.start (r := r)).step (.program_tail (Eval.ok_of_value? (a := .normal) (by decide +kernel)))
    |>.step (.program_tail (Eval.ok_of_value? (a := .normal) (by decide +kernel)))
    |>.step (.program_tail (Eval.ok_of_value? (a := .normal) (by decide +kernel)))
  have hcall := hdefined.step .program_head |>.step .expression
  have hmethod := hcall.step (.invoke (Eval.ok_of_value? (a := .function ⟨2⟩) (by decide +kernel))
    (Eval.ok_of_value? (a := []) (by decide +kernel)) (show _ = some ("m",_) by decide +kernel) (by decide +kernel))
  have hbody := hmethod.step .function |>.step .body
  have hvisits : Visits r (.expr 5 (.super (.numbered 1) keyword name)) _ := hbody.super_first (by decide +kernel)
  obtain ⟨-,-,-,-,parent,i,-,-,-,-,-,-,hsuper,hthis,hresult⟩ :=
    super_lexical hreached hids List.mem_cons_self hvisits
  have hparent := hsuper.unique (w := .class ⟨0⟩) (.outward (k := ⟨3⟩) (by decide +kernel) (by decide +kernel)
    (.outward (k := ⟨1⟩) (by decide +kernel) (by decide +kernel) (.here (by decide +kernel))))
  have hinstance := hthis.unique (w := .instance ⟨0⟩) (.outward (k := ⟨3⟩) (by decide +kernel) (by decide +kernel)
    (.here (by decide +kernel)))
  obtain rfl := Value.class.inj hparent
  obtain rfl := Value.instance.inj hinstance
  rcases hresult with ⟨f,hinherits,-⟩ | ⟨hmissing,-⟩
  · exact ⟨_,_,_,_,_,_,_,_,_,_,hreached,List.mem_cons_self,hvisits,by decide +kernel,hsuper,hthis,hinherits⟩
  · cases hmissing.unique (.own (f := ⟨0⟩) (by decide +kernel))

end Lox

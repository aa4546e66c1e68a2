import Lox.Proofs.Heap.Teardown
import Lox.Proofs.Session.Alike
import Lox.Proofs.Session.Scoping

/-! The end of a session: everything that can be reached from the global scope is emptied, and nothing else. -/
namespace Lox

variable {runs : List Run} {programs : List (List Stmt)} {s : Session}

theorem Reached.ordered (h : Reached runs programs s) : s.machine.heap.Ordered := by
  have hsame : s.machine.Alike (.same (.only (fun _ => True) (fun _ => True) trivial)) s.machine :=
    h.same fun _ _ _ _ => trivial
  exact hsame.heap.superclass

theorem Heap.Reaches.mono {h : Heap} {roots roots' : List ScopeId} (hroots : roots ⊆ roots') {x : Node}
    (hx : h.Reaches roots x) : h.Reaches roots' x := by
  induction hx with
  | root hi => exact .root (hroots hi)
  | step _ hy ih => exact ih.step hy

/-- The end of a session comes, however its objects refer to each other. The scopes that are emptied are those
that can be reached from the global one, each once, and they are counted. Nothing is left in them, nor in the
instances that could be reached, so that no reference among all these objects goes round in a circle. -/
theorem tearDown_exact (h : Reached runs programs s) :
    let old := s.machine.heap
    let new := s.machine.tearDown.2.heap
    let sweep := old.swept [s.machine.scope,Heap.globals]
    sweep.finished = true ∧ sweep.cleared.Nodup ∧
      (∀ i, i ∈ sweep.cleared ↔ old.Reaches [Heap.globals] (.scope i)) ∧
      s.machine.tearDown.1 = sweep.cleared.length ∧
      s.machine.tearDown.2.log = .tornDown sweep.cleared.length :: s.machine.log ∧
      (∀ i, old.Reaches [Heap.globals] (.scope i) → new.getScope i = ⟨∅,none⟩) ∧
      (∀ i, old.Reaches [Heap.globals] (.instance i) → (new.getInstance i).fields = ∅) ∧
      ∀ x, old.Reaches [Heap.globals] x → ¬Relation.TransGen (fun a b => b ∈ new.successors a) x x := by
  intro old new sweep
  have hswept : old.Swept [s.machine.scope,Heap.globals] sweep := Heap.swept_spec h.ordered _
  have hroots (x : Node) : old.Reaches [s.machine.scope,Heap.globals] x ↔ old.Reaches [Heap.globals] x := by
    rw [h.top.1]
    exact ⟨.mono (by simp),.mono (by simp)⟩
  refine ⟨hswept.finished,hswept.once,fun i => (hswept.cleared i).trans (hroots _),rfl,rfl,
    fun i hi => hswept.emptied i ((hroots _).mpr hi),fun i hi => hswept.stripped i ((hroots _).mpr hi),
    fun x hx => hswept.acyclic h.ordered ((hroots x).mpr hx)⟩

/-- An instance in a field of its own, and in another field a function that closes over a block. -/
theorem tearDown_exact_circle :
    ∃ runs programs s, Reached runs programs s ∧
      Node.instance ⟨0⟩ ∈ s.machine.heap.successors (.instance ⟨0⟩) ∧
      (s.machine.tearDown.2.heap.getInstance ⟨0⟩).fields = ∅ ∧
      ⟨1⟩ ∈ (s.machine.heap.swept [s.machine.scope,Heap.globals]).cleared := by
  let source := "class C \x7b \x7d var a = C(); a.b = a; \x7b fun f() \x7b \x7d a.f = f; \x7d"
  let c : Token := ⟨.identifier,"C",1⟩
  let a : Token := ⟨.identifier,"a",1⟩
  let b : Token := ⟨.identifier,"b",1⟩
  let f : Token := ⟨.identifier,"f",1⟩
  let right : Token := ⟨.rightParen,")",1⟩
  let program : List Stmt := [.class c none [],.var a (some (.call (.variable (.numbered 0) c) right [])),
    .expression (.set (.variable (.numbered 1) a) b (.variable (.numbered 2) a)),.block [.function ⟨f,[],[]⟩,
      .expression (.set (.variable (.numbered 3) a) f (.variable (.numbered 4) f))]]
  have htokens : (scan source).tokens = [⟨.kwClass,"class",1⟩,c,⟨.leftBrace,"\x7b",1⟩,⟨.rightBrace,"\x7d",1⟩,
      ⟨.kwVar,"var",1⟩,a,⟨.equal,"=",1⟩,c,⟨.leftParen,"(",1⟩,right,⟨.semicolon,";",1⟩,a,⟨.dot,".",1⟩,b,
      ⟨.equal,"=",1⟩,a,⟨.semicolon,";",1⟩,⟨.leftBrace,"\x7b",1⟩,⟨.kwFun,"fun",1⟩,f,⟨.leftParen,"(",1⟩,right,
      ⟨.leftBrace,"\x7b",1⟩,⟨.rightBrace,"\x7d",1⟩,a,⟨.dot,".",1⟩,f,⟨.equal,"=",1⟩,f,⟨.semicolon,";",1⟩,
      ⟨.rightBrace,"\x7d",1⟩,.eof 1] := by decide +kernel
  have herrors : (scan source).errors = [] := by decide +kernel
  have hprogram : (Reading.ofSource source ⟨0⟩).program = .ok program := by
    simp only [Reading.program,Reading.errors,Reading.ofSource,htokens,herrors]
    cbv
  let s := ((Session.new .unlimited (.startingAt 0)).read source).2
  have hreached : Reached (s.starts 9 program) [program] (s.execute 9 program).2 :=
    .single .unlimited (.startingAt 0) 9 hprogram
  let h := (s.execute 9 program).2.machine.heap
  obtain ⟨-,-,hcleared,-,-,-,hstripped,-⟩ := tearDown_exact hreached
  have hglobal : Node.instance ⟨0⟩ ∈ h.successors (.scope Heap.globals) := by decide +kernel
  have hself : Node.instance ⟨0⟩ ∈ h.successors (.instance ⟨0⟩) := by decide +kernel
  have hfield : Node.function ⟨0⟩ ∈ h.successors (.instance ⟨0⟩) := by decide +kernel
  have hclosure : Node.scope ⟨1⟩ ∈ h.successors (.function ⟨0⟩) := by decide +kernel
  have hinstance : h.Reaches [Heap.globals] (.instance ⟨0⟩) := (Heap.Reaches.root (by simp)).step hglobal
  have hblock := (hinstance.step hfield).step hclosure
  exact ⟨_,_,_,hreached,hself,hstripped _ hinstance,(hcleared _).mpr hblock⟩

end Lox

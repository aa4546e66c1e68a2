import Lox.Proofs.Renaming.Evaluation
import Lox.Proofs.Renaming.Program
import Lox.Proofs.Session.Alike
import Lox.Proofs.Session.Identity
import Mathlib

/-! A program does the same whatever its local variables are called. -/
namespace Lox

variable {ρ ρ' : Renaming} {t : MachinePair} {program program' : List Stmt}

/-! ### Programs -/

/-- Both end well, or both stop for the same reason. -/
inductive Outcome.Matches : Except Halt Unit → Except Halt Unit → Prop
  | ok : Matches (.ok ()) (.ok ())
  | error {halt halt'} : halt.Matches halt' → Matches (.error halt) (.error halt')

theorem Eval.Mimics.executeProgram (hρ : ρ.Apt) (hp : Stmt.ListRenamed ρ [] program program') (budget : Nat)
    (ht : t.At ρ []) : Mimics ρ [] (fun _ _ => True) (Machine.executeProgram budget program)
      (Machine.executeProgram budget program') t := by
  induction program generalizing program' t with
  | nil =>
    cases hp
    exact pure ht trivial
  | cons s ss ih =>
    cases hp with
    | cons hs hss => exact ((Renaming.evaluates_performs hρ budget).2 hs ht).bind fun _ u hu _ _ => ih hss hu

namespace MachinePair

/-- At top level no scope is marked. -/
theorem Comparable.top (h : t.Comparable ρ) (hscope : t.left.scope = Heap.globals)
    (hscope' : t.right.scope = Heap.globals) (hdepth : t.right.depth = t.left.depth) : t.At ρ [] where
  toComparable := h
  scope := hscope'.trans hscope.symm
  inRange := hscope ▸ h.heap.root
  follows := hscope ▸ .globals h.heap
  depth := hdepth

theorem Comparable.finish {outcome outcome' : Except Halt Unit} (ht : t.Comparable ρ)
    (h : Outcome.Matches outcome outcome') :
    Outcome.Matches (t.left.finish outcome).1 (t.right.finish outcome').1 ∧
      Comparable ρ ⟨t.renamed,(t.left.finish outcome).2,(t.right.finish outcome').2⟩ := by
  have hback := ht.move Heap.globals 0
  have hflush : t.right.output.flush = t.left.output.flush := congrArg Output.flush ht.output
  simp only [Machine.finish,hflush]
  cases t.left.output.flush with
  | error fault => exact ⟨.error (.error .same),hback⟩
  | ok =>
    cases h with
    | ok => exact ⟨.ok,hback.note _ _⟩
    | error h =>
      cases h with
      | error he => exact ⟨.error (.error he),hback.note _ _⟩
      | exhausted => exact ⟨.error .exhausted,hback⟩

theorem At.interpret (hρ : ρ.Apt) (ht : t.At ρ []) (hp : Stmt.ListRenamed ρ [] program program')
    (budget : Nat) :
    Outcome.Matches (t.left.interpret budget program).1 (t.right.interpret budget program').1 ∧
      ∃ renamed, Comparable ρ
        ⟨renamed,(t.left.interpret budget program).2,(t.right.interpret budget program').2⟩ := by
  have hmimics := Eval.Mimics.executeProgram hρ hp budget
    (ht.note (.interpreting program.length) (.interpreting program'.length))
  rw [Eval.Mimics] at hmimics
  simp only [Machine.interpret]
  change Ends _ _ _ _ (Machine.executeProgram budget program (t.left.note _))
    (Machine.executeProgram budget program' (t.right.note _)) at hmimics
  generalize Machine.executeProgram budget program (t.left.note _) = r at hmimics
  generalize Machine.executeProgram budget program' (t.right.note _) = r' at hmimics
  cases hmimics with
  | ok u hu _ _ =>
    obtain ⟨houtcome,hmachines⟩ := hu.finish .ok
    exact ⟨houtcome,u.renamed,hmachines⟩
  | error u hu hhalt =>
    obtain ⟨houtcome,hmachines⟩ := hu.finish (.error hhalt)
    exact ⟨houtcome,u.renamed,hmachines⟩

end MachinePair

/-! ### Sessions in which nothing has been renamed -/

/-- Whatever is to be renamed, a heap starts as the same one on both sides. -/
def Heap.Intact (h : Heap) : Prop := ∀ ρ : Renaming, HeapPair.Sound ρ ⟨fun _ => false,h,h⟩

namespace HeapPair

variable {h : Heap} {marks : ScopeId → Bool}

theorem Closes.alone {inner : List Bool} {f : FunctionId} (hf : Closes ρ ⟨marks,h,h⟩ inner f)
    (hinner : true ∉ inner) : Closes ρ' ⟨fun _ => false,h,h⟩ inner f where
  known := hf.known
  closure := rfl
  isInitializer := rfl
  inRange := hf.inRange
  declaration := ⟨[],fun _ _ _ => rfl,.refl (by simpa using hinner) _⟩

theorem Knows.alone {v : Value} (hv : Knows ρ ⟨marks,h,h⟩ v) : Knows ρ' ⟨fun _ => false,h,h⟩ v := by
  cases v with
  | function f => exact Closes.alone hv (by simp)
  | _ => trivial

/-- Two runs of one program leave the same heap, in which the names are as they were. -/
theorem Sound.intact (hh : Sound ρ ⟨marks,h,h⟩) : h.Intact := fun _ =>
  { hh with
    unmarked := rfl
    bindings := fun _ => .refl _
    bound := fun i name v hv => (hh.bound i name v hv).alone
    field := fun i name v hv => (hh.field i name v hv).alone
    method := fun k name f hf => (hh.method k name f hf).alone (by simp) }

end HeapPair

theorem Heap.initial_intact : initial.Intact := fun _ => by
  have hscope (j : ScopeId) : initial.getScope j = default := by
    obtain ⟨j⟩ := j
    cases j <;> rfl
  exact
    { scopes := rfl
      functions := rfl
      classes := rfl
      instances := rfl
      root := by decide
      outermost := rfl
      unmarked := rfl
      linked := fun i e he => by simp [hscope,default] at he
      enclosing := fun _ => rfl
      bindings := fun _ => .refl _
      bound := fun i name v hv => by simp [hscope,default] at hv
      field := fun i name v hv => by simp [Heap.getInstance,initial,default] at hv
      method := fun k name f hf => by simp [Heap.getClass,initial,default] at hf }

/-! ### Executing -/

/-- The same status, up to the text of an internal error. -/
inductive Status.Matches : Status → Status → Prop
  | same {status} : Matches status status
  | internal {fault fault'} : Matches (.runtimeError (.internal fault)) (.runtimeError (.internal fault'))

theorem Outcome.Matches.status {outcome outcome' : Except Halt Unit} (h : Outcome.Matches outcome outcome') :
    (Status.ofOutcome outcome).Matches (.ofOutcome outcome') := by
  cases h with
  | ok => exact .same
  | error h =>
    cases h with
    | exhausted => exact .same
    | error he =>
      cases he with
      | same => exact .same
      | internal => exact .internal

/-- What is entered does not depend on names. -/
theorem Distances.insertAll_depths {occurrences occurrences' : List (ExprId × String × Option Nat)}
    (h : occurrences'.map (fun o => (o.1,o.2.2)) = occurrences.map fun o => (o.1,o.2.2)) (d : Distances) :
    d.insertAll occurrences' = d.insertAll occurrences := by
  induction occurrences generalizing occurrences' d with
  | nil => rw [List.map_eq_nil_iff.mp h]
  | cons o occurrences ih =>
    obtain ⟨o',rest,rfl,ho,hrest⟩ := List.map_eq_cons_iff.mp h
    obtain ⟨id,name,depth⟩ := o
    obtain ⟨id',name',depth'⟩ := o'
    obtain ⟨rfl,rfl⟩ := Prod.mk.inj ho
    exact ih hrest _

namespace Session

variable {s : Session}

theorem execute_renamed (hρ : ρ.Apt) (budget : Nat) (hs : s.machine.heap.Intact) (hscope : s.machine.scope = Heap.globals)
    (hp : Stmt.ListRenamed ρ [] program program') (haccepted : (resolve program).errors = [])
    (haccepted' : (resolve program').errors = []) (hdepths : (resolve program').depths = (resolve program).depths)
    (hbound : ∀ i, (s.machine.resolve program).2.distances.find? i = ρ.bound i) :
    (s.execute budget program).1.Matches (s.execute budget program').1 ∧
      (s.execute budget program').2.machine.output = (s.execute budget program).2.machine.output := by
  let t : MachinePair := ⟨fun _ => false,(s.machine.resolve program).2,(s.machine.resolve program').2⟩
  have ht : t.Comparable ρ := ⟨hs ρ,Distances.insertAll_depths hdepths _,hbound,rfl,rfl⟩
  obtain ⟨houtcome,_,hmachines⟩ := (ht.top hscope hscope rfl).interpret hρ hp budget
  rw [execute_accepted haccepted,execute_accepted haccepted']
  exact ⟨houtcome.status,hmachines.output⟩

theorem execute_intact (hs : s.machine.heap.Intact) (hscope : s.machine.scope = Heap.globals)
    (budget : Nat) (program : List Stmt) : (s.execute budget program).2.machine.heap.Intact := by
  rw [execute_machine]
  split
  · -- A run is compared with itself, for some names that do not matter.
    let m := (s.machine.resolve program).2
    let ρ : Renaming := ⟨"a","b",m.distances.find?⟩
    have hρ : ρ.Apt := ⟨by simp [ρ],by simp [ρ],by simp [ρ]⟩
    have hm : MachinePair.Comparable ρ ⟨fun _ => false,m,m⟩ := ⟨hs ρ,rfl,fun _ => rfl,rfl,rfl⟩
    obtain ⟨-,_,hmachines⟩ := (hm.top hscope hscope rfl).interpret hρ (.refl (by simp) program) budget
    exact hmachines.heap.intact
  · exact hs

end Session

theorem Reached.intact {runs : List Run} {programs : List (List Stmt)} {s : Session}
    (h : Reached runs programs s) : s.machine.heap.Intact := by
  induction h with
  | new output clock =>
    intro ρ
    exact (Heap.initial_intact ρ).define rfl (by simp) (v := .native .clock) trivial
  | parsed _ hs ih => exact (Session.parse_parses hs).heap ▸ ih
  | rejected _ hs ih => exact (Session.parse_parses hs).heap ▸ ih
  | executed budget h _ ih => exact Session.execute_intact ih h.top.1 budget _
  | @run _ _ s source _ _ budget h hs ih =>
    have hparses := (s.announce_parses source).trans (Session.parse_parses hs)
    rw [Session.run_ok hs]
    exact Session.execute_intact (hparses.heap ▸ ih) (hparses.scope.trans h.top.1) budget _
  | @run_rejected _ _ s source _ _ budget _ hs ih =>
    have hparses := (s.announce_parses source).trans (Session.parse_parses hs)
    rw [Session.run_error hs]
    exact hparses.heap ▸ ih

/-! ### Renaming a variable -/

/-- A variable of a block, a function or a method may be called anything that is not in the text. If scoping
accepts the program, it also accepts the one in which the declaration and the occurrences that are bound to it
have the new name, with the same distances, and from any state of the session both do the same. -/
theorem rename_preserves {runs : List Run} {programs : List (List Stmt)} {s s₀ s₁ : Session} {source new : String}
    {path : List Nat} {x : Token} (h : Reached runs programs s) (hids : s.ids.allocated ≤ 2 ^ 32)
    (hprogram : program ∈ programs) (hparse : s₀.parse source = (.ok program,s₁))
    (haccepted : (resolve program).errors = []) (hx : x ∈ variablesAt path program)
    (hnew : Kind.ofWord new = .identifier) (hfresh : ∀ u ∈ (scan source).tokens, u.lexeme ≠ new) (budget : Nat) :
    let ρ : Renaming := ⟨x.lexeme,new,(Distances.empty.insertAll (resolve program).occurrences).find?⟩
    let program' := renameAt ρ path program
    variablesAt path program' = (variablesAt path program).map (ρ.token true) ∧
      (resolve program').errors = [] ∧ (resolve program').depths = (resolve program).depths ∧
      (s.execute budget program).1.Matches (s.execute budget program').1 ∧
      (s.execute budget program').2.machine.output = (s.execute budget program).2.machine.output := by
  intro ρ program'
  have horderly := h.orderly hids
  have hproper := horderly.proper program hprogram
  let d := s.machine.distances.insertAll (resolve program).occurrences
  have hentered : Entered programs d := horderly.entered.insertAll hprogram
  have htabled : Tabled program d :=
    .insertAll horderly.entered horderly.apart hprogram hprogram (.inl rfl)
  -- Both tables have the same distances for the occurrences in the program.
  have hsame (i : ExprId) (hi : i ∈ identities program) : d.find? i = ρ.bound i := by
    have hempty : Entered programs .empty := fun i n hn => by simp at hn
    have htabled' : Tabled program (Distances.empty.insertAll (resolve program).occurrences) :=
      .insertAll hempty horderly.apart hprogram hprogram (.inl rfl)
    exact htabled'.agree htabled horderly.apart hprogram (hempty.insertAll hprogram) hentered hi
  have heof : (Token.eof 1).lexeme ≠ new := by
    obtain ⟨ts,line,htokens,-⟩ := scan_tokens source
    exact hfresh (.eof line) (by simp [htokens])
  have hself : Stmt.ListAlike (.only (fun _ => True) (·.lexeme ≠ new) heof) program program :=
    Session.parse_only hparse hfresh
  have halike : Stmt.ListAlike (ρ.apart d.find? heof) program program :=
    hself.relike (fun _ _ ht => ht) fun o ho _ hi => ⟨hi.1,hsame o.1 (List.mem_map_of_mem ho)⟩
  obtain ⟨hname,hne⟩ := variablesAt_name halike hproper haccepted hx
  have hkeyword {word : String} (hword : Kind.ofWord word ≠ .identifier) : word ≠ new := fun heq => hword (heq ▸ hnew)
  have hρ : ρ.Apt := ⟨hne.symm,⟨hname.1.symm,hkeyword (by decide)⟩,⟨hname.2.symm,hkeyword (by decide)⟩⟩
  have hρ' : (ρ.rebind d.find?).Apt := ⟨hρ.ne,hρ.this,hρ.super⟩
  have hrenamed := renameAt_renamed hρ halike hproper haccepted hx rfl
  have hfindings := resolve_renamed hρ' hrenamed haccepted htabled
  have herrors : (resolve program').errors = [] := Finding.Renamed.errors hfindings
  have hdepths : (resolve program').depths = (resolve program).depths := Finding.Renamed.depths hfindings
  exact ⟨variablesAt_renameAt ρ path program,herrors,hdepths,
    Session.execute_renamed hρ' budget h.intact h.top.1 hrenamed haccepted herrors hdepths fun _ => rfl⟩

/-- A variable that a closure uses, and another one of the same name. -/
theorem rename_preserves_closure :
    let a : Token := ⟨.identifier,"a",1⟩
    let b : Token := ⟨.identifier,"b",1⟩
    let f : Token := ⟨.identifier,"f",1⟩
    let call : Stmt := .expression (.call (.variable (.numbered 1) f) ⟨.rightParen,")",1⟩ [])
    let text (x : Token) : List Stmt := [.block [.var x (some (.literal (.boolean true))),
      .function ⟨f,[],[.print (.variable (.numbered 0) x)]⟩,.block [.var a (some (.literal .nil)),call]]]
    ∃ s, (Session.new .unlimited (.startingAt 0)).parse
        "\x7b var a = true; fun f() \x7b print a; \x7d \x7b var a = nil; f(); \x7d \x7d" = (.ok (text a),s) ∧
      (resolve (text b)).errors = [] ∧ (s.execute 64 (text b)).2.machine.output.written = "true\n".toUTF8 := by
  intro a b f call text
  let source := "\x7b var a = true; fun f() \x7b print a; \x7d \x7b var a = nil; f(); \x7d \x7d"
  have htokens : (scan source).tokens =
      [⟨.leftBrace,"\x7b",1⟩,⟨.kwVar,"var",1⟩,a,⟨.equal,"=",1⟩,⟨.kwTrue,"true",1⟩,⟨.semicolon,";",1⟩,
        ⟨.kwFun,"fun",1⟩,f,⟨.leftParen,"(",1⟩,⟨.rightParen,")",1⟩,⟨.leftBrace,"\x7b",1⟩,⟨.kwPrint,"print",1⟩,a,
        ⟨.semicolon,";",1⟩,⟨.rightBrace,"\x7d",1⟩,⟨.leftBrace,"\x7b",1⟩,⟨.kwVar,"var",1⟩,a,⟨.equal,"=",1⟩,
        ⟨.kwNil,"nil",1⟩,⟨.semicolon,";",1⟩,f,⟨.leftParen,"(",1⟩,⟨.rightParen,")",1⟩,⟨.semicolon,";",1⟩,
        ⟨.rightBrace,"\x7d",1⟩,⟨.rightBrace,"\x7d",1⟩,.eof 1] := by decide +kernel
  have herrors : (scan source).errors = [] := by decide +kernel
  have hprogram : (Reading.ofSource source ⟨0⟩).program = .ok (text a) := by
    simp only [Reading.program,Reading.errors,Reading.ofSource,htokens,herrors]
    cbv
  let s₀ := Session.new .unlimited (.startingAt 0)
  let s := (s₀.read source).2
  have hparse : s₀.parse source = (.ok (text a),s) := by
    have hread : (Reading.ofSource source s₀.ids).program = .ok (text a) := hprogram
    rw [Session.parse_eq,hread]
  have hreached : Reached [] [text a] s := .parsed (.new .unlimited (.startingAt 0)) hparse
  have hids : s.ids.allocated ≤ 2 ^ 32 := by
    simp only [s,s₀,Session.read,Session.new,Reading.ofSource,htokens]
    decide +kernel
  have haccepted : (resolve (text a)).errors = [] := by
    rw [← List.isEmpty_iff]
    decide +kernel
  have hfresh : ∀ u ∈ (scan source).tokens, u.lexeme ≠ "b" := by
    rw [htokens]
    decide
  have hbound : (Distances.empty.insertAll (resolve (text a)).occurrences).find? (.numbered 0) = some 1 := by
    decide +kernel
  have hprinted : (s.execute 64 (text a)).2.machine.output.written = "true\n".toUTF8 := by decide +kernel
  have hx : a ∈ variablesAt [0] (text a) := List.mem_cons_self
  have htext {bound : ExprId → Option Nat} (hbound : bound (.numbered 0) = some 1) :
      renameAt ⟨a.lexeme,"b",bound⟩ [0] (text a) = text b := by
    simp [text,call,a,b,f,renameAt,Stmt.renameAt,Stmt.listRename,Stmt.rename,Stmt.functionRename,Expr.rename,
      Expr.optionRename,Expr.listRename,Renaming.token,Renaming.name,hbound]
  obtain ⟨-,herrors',-,-,houtput⟩ :=
    rename_preserves hreached hids List.mem_cons_self hparse haccepted hx rfl hfresh 64
  rw [htext hbound] at herrors' houtput
  exact ⟨s,hparse,herrors',(congrArg Output.written houtput).trans hprinted⟩

end Lox

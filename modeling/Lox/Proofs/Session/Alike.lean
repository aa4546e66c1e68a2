import Lox.Proofs.Alike.Evaluation
import Lox.Proofs.Alike.Parser
import Lox.Proofs.Alike.Scoping
import Lox.Proofs.Session.Outcome

/-! Calls do the same in sessions whose machines correspond: with programs that are alike, executions end with
statuses that are alike, and their machines correspond again. -/
namespace Lox

/-! ### Programs -/

/-- Both end well, or both stop for the same reason. -/
inductive Outcome.Alike (l : Likeness) : Except Halt Unit → Except Halt Unit → Prop
  | ok : Alike l (.ok ()) (.ok ())
  | error {halt halt'} : halt.Alike l halt' → Alike l (.error halt) (.error halt')

variable {c : Correspondence} {m m' : Machine} {program program' : List Stmt} {budget : Nat}

theorem Eval.Mirrors.executeProgram (hp : Stmt.ListAlike c.like program program') (hm : m.Alike c m') :
    Mirrors c (fun _ _ _ => True) (Machine.executeProgram budget program) m
      (Machine.executeProgram budget program') m' := by
  induction program generalizing program' m m' with
  | nil =>
    cases hp
    exact pure hm trivial
  | cons s ss ih =>
    cases hp with
    | cons hs hss =>
      exact ((c.evaluates_performs budget).2 hs hm).bind fun _ _ m₁ m₁' hm₁ _ _ => ih hss hm₁

/-- At the end of a program all machines are at the same place again. -/
theorem Machine.Comparable.finish {outcome outcome' : Except Halt Unit} (hm : m.Comparable c m')
    (h : Outcome.Alike c.like outcome outcome') :
    Outcome.Alike c.like (m.finish outcome).1 (m'.finish outcome').1 ∧
      (m.finish outcome).2.Alike c (m'.finish outcome').2 := by
  have hback : Machine.Alike c { m with scope := Heap.globals, depth := 0 }
      { m' with scope := Heap.globals, depth := 0 } :=
    ⟨hm.move Heap.globals Heap.globals 0 0,rfl,hm.heap.root,rfl⟩
  have hflush : m'.output.flush = m.output.flush := by
    rw [Output.flush,Output.flush,hm.output.flushFails]
  simp only [Machine.finish,hflush]
  cases m.output.flush with
  | error fault => exact ⟨.error (.error .output),hback⟩
  | ok =>
    cases h with
    | ok => exact ⟨.ok,hback.note _ _⟩
    | error h =>
      cases h with
      | error he => exact ⟨.error (.error he),hback.note _ _⟩
      | exhausted => exact ⟨.error .exhausted,hback⟩

theorem Machine.Keeps.finish {m₁ : Machine} (h : m.Keeps m₁) (outcome : Except Halt Unit) :
    m.Keeps (m₁.finish outcome).2 := by
  simp only [Machine.finish]
  split
  · exact ⟨h.distances,h.limit,h.flushFails⟩
  · split <;> exact ⟨h.distances,h.limit,h.flushFails⟩

/-- A run ends at top level, with no active call. -/
theorem Machine.interpret_top (m : Machine) (budget : Nat) (program : List Stmt) :
    (m.interpret budget program).2.scope = Heap.globals ∧ (m.interpret budget program).2.depth = 0 := by
  have hfinish (outcome : Except Halt Unit) (m₁ : Machine) :
      (m₁.finish outcome).2.scope = Heap.globals ∧ (m₁.finish outcome).2.depth = 0 := by
    simp only [Machine.finish]
    split
    · exact ⟨rfl,rfl⟩
    · split <;> exact ⟨rfl,rfl⟩
  simp only [Machine.interpret]
  split
  · exact hfinish _ _
  · exact hfinish _ _

theorem Machine.Alike.interpret (hm : m.Alike c m') (hp : Stmt.ListAlike c.like program program')
    (hcomplete : c.Complete (m.interpret budget program).2.heap) :
    Outcome.Alike c.like (m.interpret budget program).1 (m'.interpret budget program').1 ∧
      (m.interpret budget program).2.Alike c (m'.interpret budget program').2 ∧
      m.Keeps (m.interpret budget program).2 := by
  have hmirrors : Eval.Mirrors c (fun _ _ _ => True) (executeProgram budget program)
      (m.note (.interpreting program.length)) (executeProgram budget program')
      (m'.note (.interpreting program'.length)) :=
    .executeProgram hp (hm.note _ _)
  have hnote : m.Keeps (m.note (.interpreting program.length)) := ⟨rfl,rfl,rfl⟩
  simp only [Machine.interpret] at hcomplete ⊢
  cases hrun : executeProgram budget program (m.note (.interpreting program.length)) with
  | ok _ m₁ =>
    obtain ⟨_,m₁',hrun',hm₁,hresumes,-⟩ := hmirrors.ok hrun
    obtain ⟨houtcome,hmachine⟩ := hm₁.finish .ok
    rw [hrun']
    exact ⟨houtcome,hmachine,hnote.trans (hresumes.toKeeps.finish _)⟩
  | error halt m₁ =>
    simp only [hrun,(finish_eq (.error halt) m₁).1] at hcomplete
    obtain ⟨halt',m₁',hrun',hhalt,hm₁,hkeeps⟩ := hmirrors.error hrun hcomplete
    obtain ⟨houtcome,hmachine⟩ := hm₁.finish (.error hhalt)
    rw [hrun']
    exact ⟨houtcome,hmachine,hnote.trans (hkeeps.finish _)⟩

/-! ### Resolving -/

/-- Identities of the one kind equal those of the other kind exactly if those that stand in for them are
equal. -/
def Likeness.Distinguishes (l l' : Likeness) : Prop :=
  ∀ {i i' j j'}, l.id i i' → l'.id j j' → (j' = i' ↔ j = i)

/-- Tables that agree still do so when entries with the same distances are made in both. -/
theorem Distances.insertAll_agree {l l' : Likeness} (hids : l.Distinguishes l')
    {occurrences occurrences' : List (ExprId × String × Option Nat)}
    (h : List.Forall₂ l.Occurrence occurrences occurrences') {d d' : Distances}
    (hd : ∀ j j', l'.id j j' → d'.find? j' = d.find? j) {j j' : ExprId} (hj : l'.id j j') :
    (d'.insertAll occurrences').find? j' = (d.insertAll occurrences).find? j := by
  induction h generalizing d d' with
  | nil => exact hd j j' hj
  | @cons o o' _ _ ho _ ih =>
    refine ih fun k k' hk => ?_
    obtain ⟨i,name,distance⟩ := o
    obtain ⟨i',name',distance'⟩ := o'
    obtain ⟨hi,heq⟩ := ho
    obtain ⟨rfl,rfl⟩ := Prod.mk.inj heq
    cases distance' with
    | none => exact hd k k' hk
    | some n => simp only [find?_insert,hids hi hk,hd k k' hk]

/-- Other tables that agree may take the place of the distances, and the logs make no difference. -/
theorem Machine.Alike.reenter (hm : m.Alike c m') {d d' : Distances}
    (hd : ∀ j j', c.like.id j j' → d'.find? j' = d.find? j) (log log' : List Event) :
    Machine.Alike c { m with distances := d, log := log } { m' with distances := d', log := log' } :=
  ⟨⟨hm.heap,hd,hm.output,hm.clock⟩,hm.scope,hm.exists_scope,hm.depth⟩

theorem Machine.Alike.relog (hm : m.Alike c m') (log log' : List Event) :
    Machine.Alike c { m with log := log } { m' with log := log' } :=
  hm.reenter hm.distances log log'

theorem Machine.Alike.noteAll (hm : m.Alike c m') (events events' : List Event) :
    (m.noteAll events).Alike c (m'.noteAll events') :=
  hm.relog _ _

theorem Machine.Alike.resolve {l : Likeness} (hm : m.Alike c m') (hp : Stmt.ListAlike l program program')
    (hids : l.Distinguishes c.like) :
    List.Forall₂ (Error.Alike l) (m.resolve program).1 (m'.resolve program').1 ∧
      (m.resolve program).2.Alike c (m'.resolve program').2 := by
  have hfindings := resolve_alike hp
  have hdistances (j j' : ExprId) (hj : c.like.id j j') :=
    Distances.insertAll_agree hids (Finding.Alike.occurrences hfindings) hm.distances hj
  exact ⟨Finding.Alike.errors hfindings,hm.reenter hdistances _ _⟩

/-! ### Parsing -/

namespace Session

variable {s s' : Session} {source : String}

theorem parse_read {outcome : Except (List Error) (List Stmt)} (h : s.parse source = (outcome,s')) :
    s' = (s.read source).2 := by
  rw [parse_eq] at h
  split at h <;> exact (Prod.mk.inj h).2.symm

theorem parse_statements (h : s.parse source = (.ok program,s')) :
    program = (Lox.parse (scan source).tokens s.ids).statements := by
  rw [parse_eq] at h
  split at h
  next p hp =>
    obtain rfl := Except.ok.inj (Prod.mk.inj h).1
    rw [Reading.program] at hp
    split at hp
    · exact (Except.ok.inj hp).symm
    · cases hp
  next => simp at h

/-- A program that has been parsed is alike itself. -/
theorem parse_only {tokens : Token → Prop} {heof : tokens (.eof 1)} (h : s.parse source = (.ok program,s'))
    (htokens : ∀ t ∈ (scan source).tokens, tokens t) :
    Stmt.ListAlike (.only (fun _ => True) tokens heof) program program := by
  have hsame : List.Forall₂ (Likeness.only (fun _ => True) tokens heof).token (scan source).tokens
      (scan source).tokens := List.forall₂_same.mpr fun t ht => ⟨rfl,htokens t ht⟩
  have hparsed : (Lox.parse (scan source).tokens s.ids).Alike (.only (fun _ => True) tokens heof) 0
      (Lox.parse (scan source).tokens s.ids) := parse_alike hsame rfl fun _ _ => ⟨rfl,trivial⟩
  rw [parse_statements h]
  exact hparsed.statements

end Session

/-! ### Executing -/

inductive Status.Alike (l : Likeness) : Status → Status → Prop
  | success : Alike l .success .success
  | compileError {errors errors'} : List.Forall₂ (Error.Alike l) errors errors' →
      Alike l (.compileError errors) (.compileError errors')
  | runtimeError {e e'} : e.Alike l e' → Alike l (.runtimeError e) (.runtimeError e')
  | exhausted : Alike l .exhausted .exhausted

theorem Status.Alike.eq {l : Likeness} (ht : ∀ t t', l.token t t' → t' = t) {status status' : Status}
    (h : status.Alike l status') : status' = status := by
  cases h with
  | compileError h => rw [Error.Alike.all_eq ht h]
  | runtimeError h => rw [h.eq ht]
  | _ => rfl

theorem Outcome.Alike.eq {l : Likeness} (ht : ∀ t t', l.token t t' → t' = t) {outcome outcome' : Except Halt Unit}
    (h : Outcome.Alike l outcome outcome') : outcome' = outcome := by
  cases h with
  | ok => rfl
  | error h =>
    cases h with
    | error h => rw [h.eq ht]
    | exhausted => rfl

theorem Outcome.Alike.status {l : Likeness} {outcome outcome' : Except Halt Unit}
    (h : Outcome.Alike l outcome outcome') : (Status.ofOutcome outcome).Alike l (.ofOutcome outcome') := by
  cases h with
  | ok => exact .success
  | error h =>
    cases h with
    | error h => exact .runtimeError h
    | exhausted => exact .exhausted

namespace Session

variable {s s' : Session}

/-- The identities of a program that is rejected need not be compared afterwards. -/
theorem execute_alike {l : Likeness} (hm : s.machine.Alike c s'.machine)
    (hp : Stmt.ListAlike l program program') (ht : l.TokensIn c.like) (hids : l.Distinguishes c.like)
    (haccepted : (Lox.resolve program).errors = [] → Stmt.ListAlike c.like program program')
    (hcomplete : c.Complete (s.execute budget program).2.machine.heap) :
    (s.execute budget program).1.Alike c.like (s'.execute budget program').1 ∧
      (s.execute budget program).2.machine.Alike c (s'.execute budget program').2.machine := by
  obtain ⟨herrors,hresolved⟩ := hm.resolve hp hids
  have herrors' : List.Forall₂ (Error.Alike l) (Lox.resolve program).errors
      (Lox.resolve program').errors := herrors
  by_cases hnone : (Lox.resolve program).errors = []
  · have hnone' : (Lox.resolve program').errors = [] := by
      rw [hnone,List.forall₂_nil_left_iff] at herrors'
      exact herrors'
    rw [execute_accepted hnone] at hcomplete
    obtain ⟨houtcome,hmachine,-⟩ := hresolved.interpret (haccepted hnone) hcomplete
    rw [execute_accepted hnone,execute_accepted hnone']
    exact ⟨houtcome.status,hmachine⟩
  · have hsome' : (Lox.resolve program').errors ≠ [] := by
      intro hnone'
      rw [hnone',List.forall₂_nil_right_iff] at herrors'
      exact hnone herrors'
    rw [execute_rejected hnone,execute_rejected hsome']
    exact ⟨.compileError (herrors'.imp fun _ _ h => h.mono ht),hresolved⟩

end Session

/-! ### Sessions and themselves -/

/-- All objects stand for themselves. -/
def Correspondence.same (l : Likeness) : Correspondence :=
  ⟨l,0,0,0,0,fun _ => False,True,.empty,.empty,fun _ _ => trivial⟩

namespace Correspondence

variable {l l' : Likeness}

theorem same_complete (l : Likeness) (h : Heap) : (same l).Complete h := fun _ hname => hname.elim

/-- It is enough that the identities and tokens that are in a heap are alike in another way too. -/
theorem relike {h h' : Heap} (hh : h.Alike (same l) h') (ht : l.TokensIn l')
    (hid : ∀ i i', l.id i i' → l'.id i i') : h.Alike (same l') h' where
  scopes := hh.scopes
  functions := hh.functions
  classes := hh.classes
  instances := hh.instances
  root := hh.root
  outermost := hh.outermost
  scope i := ⟨(hh.scope i).enclosing,(hh.scope i).bound,(hh.scope i).unbound⟩
  function f := ⟨(hh.function f).declaration.mono ht hid,(hh.function f).closure,(hh.function f).isInitializer⟩
  «class» k := ⟨(hh.class k).name,(hh.class k).superclass,(hh.class k).methods⟩
  superclass := hh.superclass
  «instance» i hi :=
    ⟨(hh.instance i hi).ofClass,(hh.instance i hi).known,
      ⟨(hh.instance i hi).fields.same,(hh.instance i hi).fields.knows⟩⟩

end Correspondence

theorem Output.Alike.relike {l : Likeness} {o o' : Output} (h : o.Alike (.same l) o') (l' : Likeness) :
    o.Alike (.same l') o' :=
  ⟨h.limit,h.flushFails,h.written,h.room⟩

/-- The same identities are alike, and more tokens. -/
theorem Machine.Alike.relike {l l' : Likeness} (hm : m.Alike (.same l) m') (ht : l.TokensIn l')
    (hid : ∀ i i', l.id i i' ↔ l'.id i i') : m.Alike (.same l') m' := by
  have hheap : m.heap.Alike (.same l') m'.heap :=
    Correspondence.relike hm.heap ht fun i i' => (hid i i').mp
  have hdistances (i i' : ExprId) (hi : l'.id i i') : m'.distances.find? i' = m.distances.find? i :=
    hm.distances i i' ((hid i i').mpr hi)
  exact ⟨⟨hheap,hdistances,hm.output.relike l',hm.clock⟩,hm.scope,hm.exists_scope,hm.depth⟩

theorem Heap.initial_alike (l : Likeness) : initial.Alike (.same l) initial where
  scopes := rfl
  functions := rfl
  classes := rfl
  instances := rfl
  root := by decide
  outermost := rfl
  scope i := by
    have hscope (j : ScopeId) : initial.getScope j = default := by
      obtain ⟨j⟩ := j
      cases j <;> rfl
    rw [hscope,hscope]
    exact .of_bindings .empty none
  function f := ⟨.mk l.eof .nil .nil,rfl,rfl⟩
  «class» k := ⟨rfl,rfl,fun _ => rfl⟩
  superclass k p hp := by cases hp
  «instance» i hi := absurd hi (Nat.not_lt_zero _)

/-- A new machine corresponds to itself. -/
theorem Machine.initial_alike (l : Likeness) (output : Output) (clock : Clock) :
    (initial output clock).Alike (.same l) (initial output clock) where
  heap := (Heap.initial_alike l).define Heap.globals Native.clock.name (v := .native .clock) trivial
  distances _ _ _ := by simp [initial]
  output := ⟨rfl,rfl,⟨output.written,ByteArray.empty_append.symm,ByteArray.empty_append.symm⟩,.inr rfl⟩
  clock _ := rfl
  scope := rfl
  exists_scope := Nat.zero_lt_one
  depth := rfl

/-- Programs are alike in another way if their own identities are. -/
theorem Stmt.ListAlike.relike {l l' : Likeness} (h : ListAlike l program program') (ht : l.TokensIn l')
    (hid : ∀ o ∈ places program, ∀ i', l.id o.1 i' → l'.id o.1 i') : ListAlike l' program program' :=
  h.change ht hid

namespace Reached

variable {runs : List Run} {programs : List (List Stmt)} {s : Session}

/-- Between calls a session is at top level, with no active call. -/
theorem top (h : Reached runs programs s) : s.machine.scope = Heap.globals ∧ s.machine.depth = 0 := by
  have hexecute (s : Session) (budget : Nat) (program : List Stmt)
      (hs : s.machine.scope = Heap.globals ∧ s.machine.depth = 0) :
      (s.execute budget program).2.machine.scope = Heap.globals ∧
        (s.execute budget program).2.machine.depth = 0 := by
    rw [Session.execute_machine]
    split
    · exact Machine.interpret_top _ budget program
    · exact hs
  induction h with
  | new => exact ⟨rfl,rfl⟩
  | parsed _ hs ih => exact Session.parse_read hs ▸ ih
  | rejected _ hs ih => exact Session.parse_read hs ▸ ih
  | executed budget _ _ ih => exact hexecute _ budget _ ih
  | run budget _ hs ih =>
    rw [Session.run_ok hs]
    exact hexecute _ budget _ (Session.parse_read hs ▸ ih)
  | run_rejected budget _ hs ih =>
    rw [Session.run_error hs]
    exact Session.parse_read hs ▸ ih

/-- Every program that has been parsed is alike itself. -/
theorem programs_same (h : Reached runs programs s) :
    ∀ p ∈ programs, Stmt.ListAlike (.only (fun _ => True) (fun _ => True) trivial) p p := by
  induction h with
  | new => simp
  | parsed _ hs ih => exact List.forall_mem_cons.mpr ⟨Session.parse_only hs fun _ _ => trivial,ih⟩
  | rejected _ _ ih => exact ih
  | executed _ _ _ ih => exact ih
  | run _ _ hs ih => exact List.forall_mem_cons.mpr ⟨Session.parse_only hs fun _ _ => trivial,ih⟩
  | run_rejected _ _ _ ih => exact ih

/-- Every session corresponds to itself. Of the identities, those of programs that have never been run need
not be compared. -/
theorem same (h : Reached runs programs s) {live : ExprId → Prop}
    (hlive : ∀ r ∈ runs, ∀ o ∈ places r.program, live o.1) :
    s.machine.Alike (.same (.only live (fun _ => True) trivial)) s.machine := by
  have hexecute {budget : Nat} {program : List Stmt} {programs : List (List Stmt)} {s : Session}
      (hp : ∀ p ∈ programs, Stmt.ListAlike (.only (fun _ => True) (fun _ => True) trivial) p p)
      (hprogram : program ∈ programs)
      (hlive : ∀ r ∈ s.starts budget program, ∀ o ∈ places r.program, live o.1)
      (hs : s.machine.Alike (.same (.only live (fun _ => True) trivial)) s.machine) :
      (s.execute budget program).2.machine.Alike (.same (.only live (fun _ => True) trivial))
        (s.execute budget program).2.machine := by
    have ht : (Likeness.only (fun _ => True) (fun _ => True) trivial).TokensIn
        (.only live (fun _ => True) trivial) := fun _ _ h => h
    have hids : (Likeness.only (fun _ => True) (fun _ => True) trivial).Distinguishes
        (.only live (fun _ => True) trivial) := fun hi hj => by rw [hi.1,hj.1]
    refine (Session.execute_alike hs (hp program hprogram) ht hids (fun haccepted => ?_)
      (Correspondence.same_complete _ _)).2
    refine (hp program hprogram).relike ht fun o ho i' hi => ⟨hi.1,?_⟩
    have hempty : (s.machine.resolve program).1.isEmpty := List.isEmpty_iff.mpr haccepted
    rw [Session.starts,if_pos hempty] at hlive
    exact hlive _ List.mem_cons_self o ho
  induction h with
  | new output clock => exact Machine.initial_alike _ output clock
  | parsed _ hs ih => exact Session.parse_read hs ▸ (ih hlive).noteAll _ _
  | rejected _ hs ih => exact Session.parse_read hs ▸ (ih hlive).noteAll _ _
  | executed budget h hprogram ih =>
    obtain ⟨hstarts,hruns⟩ := List.forall_mem_append.mp hlive
    exact hexecute h.programs_same hprogram hstarts (ih hruns)
  | @run _ _ _ source _ _ budget h hs ih =>
    obtain ⟨hstarts,hruns⟩ := List.forall_mem_append.mp hlive
    rw [Session.run_ok hs]
    refine hexecute (h.run budget hs).programs_same List.mem_cons_self hstarts ?_
    exact Session.parse_read hs ▸ ((ih hruns).note _ _).noteAll _ _
  | run_rejected budget _ hs ih =>
    rw [Session.run_error hs]
    exact Session.parse_read hs ▸ ((ih hlive).note _ _).noteAll _ _

end Reached

end Lox

import Lox.Proofs.Dialect.Ending
import Lox.Proofs.Dialect.Source
import Lox.Proofs.Run.Stop
import Lox.Proofs.Session.Outcome
import Mathlib

/-! Sessions whose programs do without loops: every run comes to an end, at the latest when calls nest too
deeply. -/
namespace Lox

variable {runs : List Run} {programs : List (List Stmt)} {s s' : Session} {source : String}
  {program : List Stmt} {budget : Nat} {d : Dialect} {m : Machine} {r : Run}

/-! ### The heap between calls -/

theorem Machine.interpret_within (hm : m.heap.Within d) (hprogram : Stmt.ListWithin d program) :
    (m.interpret budget program).2.heap.Within d := by
  have hobeys := Eval.Obeys.executeProgram budget hprogram
  have hm' : (m.note (.interpreting program.length)).heap.Within d := hm
  simp only [Machine.interpret]
  split
  next heq =>
    rw [(Machine.finish_eq _ _).1]
    exact (hobeys.ok hm' heq).1
  next heq =>
    rw [(Machine.finish_eq _ _).1]
    exact hobeys.error hm' heq

theorem Session.execute_within (hm : s.machine.heap.Within d)
    (hruns : ∀ r ∈ s.starts budget program, Stmt.ListWithin d r.program) :
    (s.execute budget program).2.machine.heap.Within d := by
  by_cases haccepted : (resolve program).errors = []
  · rw [starts_accepted haccepted] at hruns
    rw [execute_accepted haccepted]
    exact Machine.interpret_within (m := (s.machine.resolve program).2) hm (hruns _ List.mem_cons_self)
  · rw [execute_rejected haccepted]
    exact hm

/-- Only what has been run can be found in the heap. -/
theorem Reached.within (h : Reached runs programs s) (hruns : ∀ r ∈ runs, Stmt.ListWithin d r.program) :
    s.machine.heap.Within d := by
  induction h with
  | new output clock => exact Heap.within_initial d
  | parsed _ hs ih => exact (Session.parse_parses hs).heap ▸ ih hruns
  | rejected _ hs ih => exact (Session.parse_parses hs).heap ▸ ih hruns
  | executed budget _ _ ih =>
    obtain ⟨hstarted,hbefore⟩ := List.forall_mem_append.mp hruns
    exact Session.execute_within (ih hbefore) hstarted
  | run budget _ hs ih =>
    obtain ⟨hstarted,hbefore⟩ := List.forall_mem_append.mp hruns
    rw [Session.run_ok hs]
    exact Session.execute_within ((Session.parse_parses hs).heap ▸ ih hbefore) hstarted
  | run_rejected budget _ hs ih =>
    rw [Session.run_error hs]
    exact (Session.parse_parses hs).heap ▸ ih hruns

/-! ### The end of a run -/

/-- Any budget that is large enough leads to one and the same end, and no run has used it up. -/
def Settles (call : Nat → Status × Session) (started : Nat → List Run) : Prop :=
  ∃ n, ∀ budget, n ≤ budget → call budget = call n ∧ (call budget).1 ≠ .exhausted ∧
    ∀ r ∈ started budget, ¬(Work.program r.budget r.program).Stops r.machine .exhausted

theorem Status.ofOutcome_finish_ne {outcome : Except Halt Unit} (h : outcome ≠ .error .exhausted)
    (m : Machine) : ofOutcome (m.finish outcome).1 ≠ .exhausted := by
  simp only [Machine.finish]
  split
  · simp [ofOutcome]
  · split <;> simp_all [ofOutcome]

theorem Session.execute_settles (hm : s.machine.heap.Within .loopless)
    (hprogram : Stmt.ListWithin .loopless program) : Settles (s.execute · program) (s.starts · program) := by
  by_cases haccepted : (resolve program).errors = []
  case neg =>
    refine ⟨0,fun budget _ => ?_⟩
    simp only [execute_rejected haccepted,starts_rejected haccepted]
    exact ⟨trivial,by simp,by simp⟩
  let m := (s.machine.resolve program).2
  have hends := executeProgram_ends program hprogram (m := m.note (.interpreting program.length)) hm
  have hsettles (outcome : Except Halt Unit) (m' : Machine) (n : Nat) (houtcome : outcome ≠ .error .exhausted)
      (hinterpret : ∀ k, n ≤ k → m.interpret k program = m'.finish outcome)
      (hstops : ∀ k, n ≤ k →
        ¬(Work.program k program).Stops (m.note (.interpreting program.length)) .exhausted) :
      Settles (s.execute · program) (s.starts · program) := by
    refine ⟨n,fun k hk => ?_⟩
    simp only [execute_accepted haccepted,starts_accepted haccepted]
    rw [show (s.machine.resolve program).2 = m from rfl,hinterpret k hk,hinterpret n (Nat.le_refl n)]
    refine ⟨rfl,Status.ofOutcome_finish_ne houtcome m',?_⟩
    simpa using hstops k hk
  cases hends with
  | ok n a m' hx hdepth =>
    refine hsettles (.ok ()) m' n (by simp) (fun k hk => ?_) fun k hk => ?_
    · rw [Machine.interpret,hx k hk]
    · rintro ⟨m'',hstopped⟩
      rw [hx k hk] at hstopped
      cases hstopped
  | error n e m' hx =>
    refine hsettles (.error (.error e)) m' n (by simp) (fun k hk => ?_) fun k hk => ?_
    · rw [Machine.interpret,hx k hk]
    · rintro ⟨m'',hstopped⟩
      rw [hx k hk] at hstopped
      cases hstopped

/-- A run in which calls nest too deeply ends with that. -/
theorem Session.execute_overflow (hr : r ∈ s.starts budget program) {line : Nat}
    (h : (Work.program r.budget r.program).Stops r.machine (.error (.stackOverflow line))) :
    (s.execute budget program).1 = .runtimeError
      (if s.machine.output.flushFails then .output .flushFailed else .stackOverflow line) := by
  by_cases haccepted : (resolve program).errors = []
  case neg => simp [starts_rejected haccepted] at hr
  rw [starts_accepted haccepted,List.mem_singleton] at hr
  subst hr
  obtain ⟨m',hm'⟩ := h
  have hrestored := Eval.Restores.executeProgram budget program
    ((s.machine.resolve program).2.note (.interpreting program.length))
  simp only [Eval.after,hm'] at hrestored
  have hflush : m'.output.flushFails = s.machine.output.flushFails := hrestored.flushFails
  simp only [execute_accepted haccepted,Machine.interpret,hm',Machine.finish,Output.flush,hflush]
  cases s.machine.output.flushFails with
  | false => rfl
  | true => rfl

/-- In a session in which no program that has been run has a loop, every run of a program that has none ends, and
so does the run of a text. In any session, a run in which calls nest as deeply as they may, and another one is made,
ends with a stack overflow there, which only a failing flush can take the place of. -/
theorem loopless_runs_end (h : Reached runs programs s)
    (hruns : ∀ r ∈ runs, Stmt.ListWithin .loopless r.program) :
    (∀ program ∈ programs, Stmt.ListWithin .loopless program →
      Settles (s.execute · program) (s.starts · program)) ∧
    (∀ source, (∀ program s', (s.announce source).parse source = (.ok program,s') →
        Stmt.ListWithin .loopless program) → Settles (s.run · source) (s.startsText · source)) ∧
    ∀ (s : Session) budget program, ∀ r ∈ s.starts budget program,
      ∀ n callee paren es m f m₁ vs m₂ name, Visits r (.expr (n + 1) (.call callee paren es)) m →
        evaluate n callee m = .ok f m₁ → Eval.evaluateEach (evaluate n) es m₁ = .ok vs m₂ →
        m₂.heap.callable? f = some (name,vs.length) → Machine.maxDepth ≤ m₂.depth →
        (s.execute budget program).1 = .runtimeError
          (if s.machine.output.flushFails then .output .flushFailed else .stackOverflow paren.line) := by
  refine ⟨fun program _ hprogram => Session.execute_settles (h.within hruns) hprogram,fun source hsource => ?_,?_⟩
  · cases hparse : (s.announce source).parse source with
    | mk outcome s' => cases outcome with
      | error errors =>
        simp only [Session.startsText,hparse,Session.run_error hparse]
        exact ⟨0,fun _ _ => ⟨rfl,by simp,by simp⟩⟩
      | ok program =>
        simp only [Session.startsText,hparse,Session.run_ok hparse]
        have hheap := (Session.parse_parses hparse).heap
        exact Session.execute_settles (hheap ▸ h.within hruns) (hsource program s' hparse)
  · intro s budget program r hr n callee paren es m f m₁ vs m₂ name hvisits he hes hf hdepth
    exact Session.execute_overflow hr (hvisits.stops (Work.stops_of_depth he hes hf hdepth))

theorem loopless_runs_end_recursion :
    ∃ s program, Reached [] [program] s ∧ Stmt.ListWithin .loopless program ∧
      (Reading.ofSource "fun f() \x7b f(); \x7d f();" ⟨0⟩).program = .ok program ∧
      Settles (s.execute · program) (s.starts · program) := by
  let source := "fun f() \x7b f(); \x7d f();"
  let f : Token := ⟨.identifier,"f",1⟩
  let call (id : Nat) : Stmt := .expression (.call (.variable (.numbered id) f) ⟨.rightParen,")",1⟩ [])
  let program : List Stmt := [.function ⟨f,[],[call 0]⟩,call 1]
  have htokens : (scan source).tokens = [⟨.kwFun,"fun",1⟩,f,⟨.leftParen,"(",1⟩,⟨.rightParen,")",1⟩,
      ⟨.leftBrace,"\x7b",1⟩,f,⟨.leftParen,"(",1⟩,⟨.rightParen,")",1⟩,⟨.semicolon,";",1⟩,⟨.rightBrace,"\x7d",1⟩,
      f,⟨.leftParen,"(",1⟩,⟨.rightParen,")",1⟩,⟨.semicolon,";",1⟩,.eof 1] := by decide +kernel
  have herrors : (scan source).errors = [] := by decide +kernel
  have hprogram : (Reading.ofSource source ⟨0⟩).program = .ok program := by
    simp only [Reading.program,Reading.errors,Reading.ofSource,htokens,herrors]
    cbv
  let s := Session.new .unlimited (.startingAt 0)
  have hparse : s.parse source = (.ok program,(s.read source).2) := by
    have hread : (Reading.ofSource source s.ids).program = .ok program := hprogram
    rw [Session.parse_eq,hread]
  have hreached : Reached [] [program] (s.read source).2 := .parsed (.new _ _) hparse
  have hwords : ∀ t ∈ (scan source).tokens, ¬(t.kind = .kwWhile ∨ t.kind = .kwFor) := by
    rw [htokens]
    decide
  have hloopless : Stmt.ListWithin .loopless program :=
    Session.parse_within hparse hwords fun _ _ _ => .inl trivial
  have hends := (loopless_runs_end hreached (by simp)).1 program List.mem_cons_self hloopless
  exact ⟨_,program,hreached,hloopless,hprogram,hends⟩

end Lox

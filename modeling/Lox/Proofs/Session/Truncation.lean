import Lox.Proofs.Dialect.Source
import Lox.Proofs.Dialect.Visit
import Lox.Proofs.Run.Budget
import Lox.Proofs.Run.Truncation
import Lox.Proofs.Session.Outcome
import Mathlib

/-! A new session whose output fails behind some number of bytes, beside one whose output never fails. -/
namespace Lox

variable {program : List Stmt} {source : String} {budget k : Nat} {c : Clock} {m m' : Machine} {v : Value}

/-! ### One run -/

namespace Machine

/-- The machine when a run is over that has stopped at the limit. -/
def cutOff (m : Machine) (k : Nat) (c : Clock) (v : Value) : Machine :=
  { m.severed k c v with scope := Heap.globals, depth := 0 }.note (.aborted (.output .limitReached))

theorem finish_limited (outcome : Except Halt Unit) (m : Machine) (k : Nat) (c : Clock) :
    finish outcome (m.limited k c) = ((finish outcome m).1,(finish outcome m).2.limited k c) := by
  have hflush : (m.limited k c).output.flush = m.output.flush := rfl
  simp only [finish,hflush]
  cases m.output.flush with
  | error fault => rfl
  | ok u => rcases outcome with (_ | _) | u <;> rfl

theorem finish_output (outcome : Except Halt Unit) (m : Machine) :
    (finish outcome m).2.output = m.output := by
  simp only [finish]
  split
  · rfl
  · split <;> rfl

theorem interpret_of_ok {u : Unit}
    (h : executeProgram budget program (m.note (.interpreting program.length)) = .ok u m') :
    m.interpret budget program = finish (.ok ()) m' := by
  simp only [interpret,h]

theorem interpret_of_error {halt : Halt}
    (h : executeProgram budget program (m.note (.interpreting program.length)) = .error halt m') :
    m.interpret budget program = finish (.error halt) m' := by
  simp only [interpret,h]

theorem interpret_output (m : Machine) (budget : Nat) (program : List Stmt) :
    (m.interpret budget program).2.output =
      ((executeProgram budget program).after (m.note (.interpreting program.length))).output := by
  simp only [Eval.after]
  split
  next h => rw [interpret_of_ok h,finish_output]
  next h => rw [interpret_of_error h,finish_output]

theorem executeProgram_truncates (hm : m.output.limit = none)
    (hr : Run.Timeless ⟨budget,program,m.note (.interpreting program.length)⟩) :
    Eval.Truncates ⟨budget,program,m.note (.interpreting program.length)⟩ (executeProgram budget program)
      (m.note (.interpreting program.length)) :=
  (truncating hr budget).program .start hm

theorem interpret_limited (hm : m.output.limit = none)
    (hr : Run.Timeless ⟨budget,program,m.note (.interpreting program.length)⟩)
    (hle : (m.interpret budget program).2.output.written.size ≤ k) : (m.limited k c).interpret budget program =
      ((m.interpret budget program).1,(m.interpret budget program).2.limited k c) := by
  have htruncates := executeProgram_truncates hm hr
  rw [interpret_output] at hle
  have hsame : executeProgram budget program ((m.limited k c).note (.interpreting program.length)) = _ :=
    htruncates.same k c hle
  cases hx : executeProgram budget program (m.note (.interpreting program.length)) with
  | ok u m₁ =>
    rw [hx] at hsame
    rw [interpret_of_ok hx,interpret_of_ok hsame,finish_limited]
  | error halt m₁ =>
    rw [hx] at hsame
    rw [interpret_of_error hx,interpret_of_error hsame,finish_limited]

/-- Of all that is written, the limited output has accepted the first bytes. -/
theorem interpret_severed (hm : m.output.limit = none) (hflush : m.output.flushFails = false)
    (hr : Run.Timeless ⟨budget,program,m.note (.interpreting program.length)⟩) (hle : m.output.written.size ≤ k)
    (hlt : k < (m.interpret budget program).2.output.written.size) :
    ∃ m' v, Crossing ⟨budget,program,m.note (.interpreting program.length)⟩ k m' v ∧
      (m.limited k c).interpret budget program =
        (.error (.error (.output .limitReached)),m'.cutOff k c v) ∧
      (m'.cutOff k c v).output.written = (m.interpret budget program).2.output.written.extract 0 k := by
  have htruncates := executeProgram_truncates hm hr
  rw [interpret_output] at hlt ⊢
  obtain ⟨m',v,bytes,hcrossing,hwritten,hsevered⟩ := htruncates.severs k c hle hlt
  have hstopped : executeProgram budget program ((m.limited k c).note (.interpreting program.length)) = _ :=
    hsevered
  have hrestored := Eval.Restores.executeProgram budget program
    ((m.limited k c).note (.interpreting program.length))
  rw [Eval.after,hstopped] at hrestored
  have hfails : (m'.severed k c v).output.flushFails = false := hrestored.flushFails.trans hflush
  refine ⟨m',v,hcrossing,?_,?_⟩
  · rw [interpret_of_error hstopped]
    simp only [finish,Output.flush,hfails]
    rfl
  · have hbehind := hcrossing.behind
    have hrest : bytes.extract (0 - (m'.output.written ++ (m'.line v).toUTF8).size)
        (k - (m'.output.written ++ (m'.line v).toUTF8).size) = .empty := by
      rw [ByteArray.extract_eq_empty_iff]
      omega
    rw [ByteArray.size_append] at hbehind
    have hexceeds : (m'.limited k c).output.write (m'.line v) = _ :=
      Output.write_exceeds rfl hbehind hcrossing.before
    rw [hwritten,ByteArray.extract_append,hrest,ByteArray.append_empty]
    exact congrArg (fun p => p.2.written) hexceeds

/-- A run that has ended within its budget does not need a larger one. -/
theorem interpret_larger {n n' : Nat} (hn : n ≤ n') (hflush : m.output.flushFails = false)
    (h : (m.interpret n program).1 ≠ .error .exhausted) : m.interpret n' program = m.interpret n program := by
  rcases Eval.Continues.executeProgram hn program (m.note (.interpreting program.length)) with hstops | heq
  · obtain ⟨m',hx⟩ := hstops
    have hrestored := Eval.Restores.executeProgram n program (m.note (.interpreting program.length))
    rw [Eval.after,hx] at hrestored
    have hfails : m'.output.flushFails = false := hrestored.flushFails.trans hflush
    refine absurd ?_ h
    rw [interpret_of_error hx]
    simp only [finish,Output.flush,hfails]
    rfl
  · simp only [interpret,heq]

end Machine

/-! ### One session -/

namespace Session

def limited (s : Session) (k : Nat) (c : Clock) : Session := { s with machine := s.machine.limited k c }

variable {s s' : Session}

theorem parse_limited (s : Session) (source : String) (k : Nat) (c : Clock) :
    (s.limited k c).parse source = ((s.parse source).1,(s.parse source).2.limited k c) := by
  rw [parse_eq,parse_eq]
  have hids : (s.limited k c).ids = s.ids := rfl
  rw [hids]
  cases (Reading.ofSource source s.ids).program <;> rfl

theorem execute_limited (hm : s.machine.output.limit = none)
    (hruns : ∀ r ∈ s.starts budget program, r.Timeless)
    (hle : (s.execute budget program).2.machine.output.written.size ≤ k) :
    (s.limited k c).execute budget program =
      ((s.execute budget program).1,(s.execute budget program).2.limited k c) := by
  by_cases haccepted : (resolve program).errors = []
  · rw [starts_accepted haccepted] at hruns
    rw [execute_accepted haccepted] at hle ⊢
    rw [execute_accepted haccepted]
    have hinterpret := Machine.interpret_limited (m := (s.machine.resolve program).2) (c := c) hm
      (hruns _ List.mem_cons_self) hle
    have hresolve : ((s.limited k c).machine.resolve program).2 = (s.machine.resolve program).2.limited k c := rfl
    rw [hresolve,hinterpret]
    rfl
  · rw [execute_rejected haccepted,execute_rejected haccepted]
    rfl

theorem execute_severed (hm : s.machine.output.limit = none) (hflush : s.machine.output.flushFails = false)
    (hruns : ∀ r ∈ s.starts budget program, r.Timeless) (hle : s.machine.output.written.size ≤ k)
    (hlt : k < (s.execute budget program).2.machine.output.written.size) :
    ∃ r ∈ s.starts budget program, ∃ m v, Crossing r k m v ∧
      (m.cutOff k c v).output.written = (s.execute budget program).2.machine.output.written.extract 0 k ∧
      ∀ larger, budget ≤ larger → (s.limited k c).execute larger program =
        (.runtimeError (.output .limitReached),⟨m.cutOff k c v,s.ids⟩) := by
  by_cases haccepted : (resolve program).errors = []
  case neg =>
    rw [execute_rejected haccepted] at hlt
    exact absurd hlt (Nat.not_lt.mpr hle)
  rw [starts_accepted haccepted] at hruns ⊢
  rw [execute_accepted haccepted] at hlt ⊢
  obtain ⟨m,v,hcrossing,hinterpret,hwritten⟩ := Machine.interpret_severed
    (m := (s.machine.resolve program).2) (c := c) hm hflush (hruns _ List.mem_cons_self) hle hlt
  refine ⟨_,List.mem_cons_self,m,v,hcrossing,hwritten,fun larger hlarger => ?_⟩
  have hresolve : ((s.limited k c).machine.resolve program).2 = (s.machine.resolve program).2.limited k c := rfl
  have hlargest : ((s.machine.resolve program).2.limited k c).interpret larger program =
      ((s.machine.resolve program).2.limited k c).interpret budget program := by
    refine Machine.interpret_larger hlarger hflush ?_
    rw [hinterpret]
    simp
  rw [execute_accepted haccepted,hresolve,hlargest,hinterpret]
  rfl

/-- If the name of the clock is not read, the clock is not called. -/
theorem new_timeless {output : Output} {clock : Clock}
    (hsource : ∀ program, (Reading.ofSource source ⟨0⟩).program = .ok program →
      Stmt.ListWithin .timeless program) : ∀ r ∈ (new output clock).startsText budget source, r.Timeless := by
  intro r hr
  simp only [startsText,parse_eq] at hr
  split at hr
  next program _ heq =>
    split at heq <;> cases heq
    next hparse =>
      by_cases haccepted : (resolve program).errors = []
      · rw [starts_accepted haccepted,List.mem_singleton] at hr
        subst hr
        exact Run.timeless (hsource program hparse) (Heap.within_initial .timeless)
      · rw [starts_rejected haccepted] at hr
        cases hr
  next => cases hr

end Session

/-- With an output that accepts a number of bytes and then fails, a text that does not call the clock does the same
as with one that never fails if it prints no more than that. Otherwise it stops at the print statement with which
it prints more: the first bytes have been printed by then, and nothing is done any more. -/
theorem failing_output_truncates (source : String) (budget k : Nat) (clock clock' : Clock)
    (hclock : ∀ r ∈ (Session.new .unlimited clock).startsText budget source, r.Timeless) :
    let first := Session.new .unlimited clock
    let second := Session.new ⟨some k,false,.empty⟩ clock'
    let whole := first.run budget source
    let cut := second.run budget source
    (whole.2.machine.output.written.size ≤ k → cut.1 = whole.1 ∧ cut.2 = whole.2.limited k clock') ∧
    (k < whole.2.machine.output.written.size →
      cut.1 = .runtimeError (.output .limitReached) ∧
      cut.2.machine.output.written = whole.2.machine.output.written.extract 0 k ∧
      (∃ r ∈ first.startsText budget source, ∃ m v, Crossing r k m v ∧
        cut.2 = ⟨m.cutOff k clock' v,whole.2.ids⟩ ∧ cut.2.machine.heap = m.heap) ∧
      ∀ larger, budget ≤ larger → second.run larger source = cut) := by
  intro first second
  have hlimited := (first.announce source).parse_limited source k clock'
  cases hparse : (first.announce source).parse source with
  | mk outcome s =>
    have hparse' : (second.announce source).parse source = (outcome,s.limited k clock') :=
      hlimited.trans (by rw [hparse])
    have hs : s = ((first.announce source).read source).2 := by
      rw [Session.parse_eq] at hparse
      split at hparse <;> exact (Prod.mk.inj hparse).2.symm
    have hstart : s.machine.output.written.size = 0 := by
      rw [hs]
      rfl
    cases outcome with
    | error errors =>
      rw [Session.run_error hparse,Session.run_error hparse']
      exact ⟨fun _ => ⟨rfl,rfl⟩,fun hlt => absurd hlt (by simp only [hstart]; omega)⟩
    | ok program =>
      have hm : s.machine.output.limit = none := by
        rw [hs]
        rfl
      have hflush : s.machine.output.flushFails = false := by
        rw [hs]
        rfl
      have hstarts : first.startsText budget source = s.starts budget program := by
        simp only [Session.startsText,hparse]
      rw [hstarts] at hclock
      rw [Session.run_ok hparse,Session.run_ok hparse',hstarts]
      refine ⟨fun hle => ?_,fun hlt => ?_⟩
      · rw [Session.execute_limited hm hclock hle]
        exact ⟨rfl,rfl⟩
      · obtain ⟨r,hr,m,v,hcrossing,hfirst,hsevered⟩ := Session.execute_severed (c := clock') hm hflush
          hclock (by omega) hlt
        rw [hsevered budget (Nat.le_refl budget),Session.execute_ids]
        refine ⟨rfl,hfirst,⟨r,hr,m,v,hcrossing,rfl,rfl⟩,fun larger hlarger => ?_⟩
        rw [Session.run_ok hparse',hsevered larger hlarger]

theorem failing_output_truncates_second_line :
    let source := "print \"ab\"; print \"cd\";"
    let whole := (Session.new .unlimited (.startingAt 0)).run 9 source
    let cut := (Session.new ⟨some 4,false,.empty⟩ (.startingAt 1)).run 9 source
    (∀ r ∈ (Session.new .unlimited (.startingAt 0)).startsText 9 source, r.Timeless) ∧
      whole.2.machine.output.written = "ab\ncd\n".toUTF8 ∧ cut.1 = .runtimeError (.output .limitReached) ∧
      cut.2.machine.output.written = "ab\nc".toUTF8 := by
  intro source whole cut
  let program : List Stmt := [.print (.literal (.string "ab")),.print (.literal (.string "cd"))]
  have htokens : (scan source).tokens = [⟨.kwPrint,"print",1⟩,⟨.string "ab","\"ab\"",1⟩,⟨.semicolon,";",1⟩,
      ⟨.kwPrint,"print",1⟩,⟨.string "cd","\"cd\"",1⟩,⟨.semicolon,";",1⟩,.eof 1] := by decide +kernel
  have herrors : (scan source).errors = [] := by decide +kernel
  have hprogram : (Reading.ofSource source ⟨0⟩).program = .ok program := by
    simp only [Reading.program,Reading.errors,Reading.ofSource,htokens,herrors]
    cbv
  have hparse : ((Session.new .unlimited (.startingAt 0)).announce source).parse source =
      (.ok program,(((Session.new .unlimited (.startingAt 0)).announce source).read source).2) := by
    have hread : (Reading.ofSource source ((Session.new .unlimited (.startingAt 0)).announce source).ids).program =
      .ok program := hprogram
    rw [Session.parse_eq,hread]
  have hwords : ∀ t ∈ (scan source).tokens, t.kind ≠ .identifier := by
    rw [htokens]
    decide
  have hsource (p : List Stmt) (hp : (Reading.ofSource source ⟨0⟩).program = .ok p) :
      Stmt.ListWithin .timeless p := by
    obtain rfl := Except.ok.inj (hprogram.symm.trans hp)
    exact Session.parse_within hparse (fun _ _ _ => trivial) fun t ht hk => absurd hk (hwords t ht)
  have hwhole : whole.2.machine.output.written = "ab\ncd\n".toUTF8 := by
    simp only [whole]
    rw [Session.run_ok hparse]
    have haccepted : (resolve program).errors = [] := by decide +kernel
    rw [Session.execute_accepted haccepted]
    decide +kernel
  have hclock : ∀ r ∈ (Session.new .unlimited (.startingAt 0)).startsText 9 source, r.Timeless :=
    Session.new_timeless hsource
  obtain ⟨-,hsevers⟩ := failing_output_truncates source 9 4 (.startingAt 0) (.startingAt 1) hclock
  obtain ⟨hstatus,hwritten,-⟩ := hsevers (by rw [hwhole]; decide +kernel)
  refine ⟨hclock,hwhole,hstatus,hwritten.trans ?_⟩
  rw [hwhole]
  decide +kernel

end Lox

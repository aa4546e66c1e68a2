import Lox.Proofs.Session.Reached

/-! What becomes of a program that is executed: it is run if scoping has nothing against it, and rejected
with the errors of scoping otherwise. -/
namespace Lox

def Status.ofOutcome : Except Halt Unit → Status
  | .ok () => .success
  | .error (.error e) => .runtimeError e
  | .error .exhausted => .exhausted

theorem Status.ofOutcome_ne_compileError (outcome : Except Halt Unit) (errors : List Error) :
    Status.ofOutcome outcome ≠ .compileError errors := by
  unfold ofOutcome
  split <;> simp

theorem Status.ofOutcome_success {outcome : Except Halt Unit} (h : ofOutcome outcome = .success) :
    outcome = .ok () := by
  rcases outcome with (_ | _) | ⟨⟩
  · cases h
  · cases h
  · rfl

theorem Status.ne_compileError_of_success {status : Status} (h : status = .success) (errors : List Error) :
    status ≠ .compileError errors := by
  rw [h]
  exact Status.noConfusion

/-- The run that a text starts, if it is a program. -/
def Session.startsText (s : Session) (budget : Nat) (source : String) : List Run :=
  match (s.announce source).parse source with
  | (.ok program,s') => s'.starts budget program
  | (.error _,_) => []

namespace Session

variable {s s' : Session} {budget : Nat} {program : List Stmt} {errors : List Error}

theorem execute_rejected (h : (resolve program).errors ≠ []) : s.execute budget program =
    (.compileError (resolve program).errors,{ s with machine := (s.machine.resolve program).2 }) := by
  have hsome : ((s.machine.resolve program).1).isEmpty = false := by
    simpa [Machine.resolve] using h
  simp only [execute,hsome]
  rfl

theorem execute_accepted (h : (resolve program).errors = []) : s.execute budget program =
    let (outcome,m) := (s.machine.resolve program).2.interpret budget program
    (.ofOutcome outcome,{ s with machine := m }) := by
  have hnone : ((s.machine.resolve program).1).isEmpty = true := by
    simpa [Machine.resolve] using h
  simp only [execute,hnone,if_true]
  rfl

theorem starts_accepted (h : (resolve program).errors = []) : s.starts budget program =
    [⟨budget,program,(s.machine.resolve program).2.note (.interpreting program.length)⟩] := by
  have hnone : (s.machine.resolve program).1.isEmpty = true := by
    simpa [Machine.resolve] using h
  rw [starts,if_pos hnone]

theorem starts_rejected (h : (resolve program).errors ≠ []) : s.starts budget program = [] := by
  have hsome : ¬(s.machine.resolve program).1.isEmpty = true := by
    simpa [Machine.resolve] using h
  rw [starts,if_neg hsome]

theorem execute_compileError : (s.execute budget program).1 = .compileError errors ↔
    errors ≠ [] ∧ errors = (resolve program).errors := by
  by_cases h : (resolve program).errors = []
  · rw [execute_accepted h,h]
    constructor
    · intro hstatus
      exact absurd hstatus (Status.ofOutcome_ne_compileError _ _)
    · rintro ⟨hne,rfl⟩
      exact absurd rfl hne
  · rw [execute_rejected h]
    constructor
    · rintro ⟨⟩
      exact ⟨h,rfl⟩
    · rintro ⟨-,rfl⟩
      rfl

end Session

end Lox

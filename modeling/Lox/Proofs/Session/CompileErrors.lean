import Lox.Proofs.Scoping.Diagnosis
import Lox.Proofs.Scoping.Order
import Lox.Proofs.Session.Outcome
import Lox.Proofs.Syntax.Faults
import Lox.Proofs.Token.Lines
import Mathlib

/-! The errors a text is rejected for: lexical and syntax errors are put in the order of lines, errors of
scoping come as they are found. -/
namespace Lox

/-- All errors have a line, and none is on a line in front of that of an error before it. -/
def Error.InLineOrder (errors : List Error) : Prop :=
  ∃ lines : List Nat, errors.map line? = lines.map some ∧ lines.Pairwise (· ≤ ·)

theorem Error.InLineOrder.of_static {errors : List Error} (hstatic : ∀ e ∈ errors, e.isStatic)
    (h : errors.Pairwise fun e f => e.line?.getD 0 ≤ f.line?.getD 0) : InLineOrder errors := by
  refine ⟨errors.map fun e => e.line?.getD 0,?_,List.pairwise_map.mpr h⟩
  rw [List.map_map]
  refine List.map_congr_left fun e he => ?_
  have hline := hstatic e he
  cases e <;> first | rfl | cases hline

namespace Reading

variable (source : String) (ids : ExprIds)

theorem errors_static : ∀ e ∈ (ofSource source ids).errors, e.isStatic := by
  intro e he
  rcases List.mem_append.mp he with he | he
  · obtain ⟨_,_,rfl⟩ := Scan.errors_lexical source he
    rfl
  · obtain ⟨_,_,rfl⟩ := parse_errors _ _ e he
    rfl

/-- The report has each error once. -/
theorem report_perm : (ofSource source ids).report.Perm (ofSource source ids).errors := by
  unfold report
  split
  next hparsed =>
    rw [errors,List.isEmpty_iff.mp hparsed,List.append_nil]
  next => exact List.mergeSort_perm _ _

theorem report_ordered : Error.InLineOrder (ofSource source ids).report := by
  have hstatic : ∀ e ∈ (ofSource source ids).report, e.isStatic := fun e he =>
    errors_static source ids e ((report_perm source ids).mem_iff.mp he)
  refine .of_static hstatic ?_
  unfold report
  split
  · exact Scan.errors_sorted source
  · refine (List.pairwise_mergeSort (fun a b c hab hbc => ?_) (fun a b => ?_) _).imp of_decide_eq_true
    · simp only [decide_eq_true_eq] at *
      omega
    · simp only [Bool.or_eq_true,decide_eq_true_eq]
      omega

end Reading

/-- Errors of scoping are in the order of lines if nothing is checked in front of what stands before it. -/
theorem violations_ordered {s s' : Session} {source : String} {program : List Stmt}
    (h : s.parse source = (.ok program,s')) (hts : Sequential (scan source).tokens) :
    Error.InLineOrder ((points program).filterMap Point.violation?) := by
  obtain ⟨-,ts,line,htokens,-,hphrase⟩ := Session.parse_program h
  have hsorted := Scan.tokens_sorted source
  rw [htokens] at hts hsorted
  have hfollows : Follows ts (points program) := hphrase.follows _ [] hts.left
  have hblamed := hfollows.lines_sorted (List.pairwise_append.mp hsorted).1
  refine .of_static (fun e he => ?_) (hblamed.filterMap _ fun p q hpq e he f hf => ?_)
  · obtain ⟨p,-,he⟩ := List.mem_filterMap.mp he
    obtain ⟨fault,rfl⟩ := Point.violation?_blamed he
    rfl
  · obtain ⟨_,rfl⟩ := Point.violation?_blamed he
    obtain ⟨_,rfl⟩ := Point.violation?_blamed hf
    exact hpq

/-- A run that is rejected reports at least one error. If the text has lexical or syntax errors, it reports
each of them once, in the order of lines. Otherwise it reports the violation at each point of the program,
in the order in which points are checked; this is the order of lines too, unless the text has a `for`
statement, whose body is checked in front of its increment, or an assignment to a property, whose value is
checked in front of the object. -/
theorem compile_errors_reported {s : Session} {budget : Nat} {source : String} {errors : List Error}
    (h : (s.run budget source).1 = .compileError errors) :
    let r := Reading.ofSource source s.ids
    errors ≠ [] ∧
      (r.errors ≠ [] → errors.Perm r.errors ∧ Error.InLineOrder errors) ∧
      (r.errors = [] → ∃ program, r.program = .ok program ∧ errors = (resolve program).errors ∧
        errors = (points program).filterMap Point.violation? ∧
        (Sequential r.scan.tokens → Error.InLineOrder errors)) := by
  intro r
  have hread : Reading.ofSource source (s.announce source).ids = r := rfl
  have hparse := Session.parse_eq (s.announce source) source
  rw [hread] at hparse
  by_cases hr : r.errors = []
  · have hprogram : r.program = .ok r.parsed.statements := by
      rw [Reading.program,hr]
      rfl
    rw [hprogram] at hparse
    rw [Session.run_ok hparse] at h
    obtain ⟨hne,rfl⟩ := Session.execute_compileError.mp h
    have hviolations := resolve_errors (Session.parse_regular hparse).proper
    refine ⟨hne,fun hfault => absurd hr hfault,fun _ => ⟨_,hprogram,rfl,hviolations,fun hsequential => ?_⟩⟩
    rw [hviolations]
    exact violations_ordered hparse hsequential
  · have hprogram : r.program = .error r.errors := by
      rw [Reading.program,if_neg (by simpa using hr)]
    rw [hprogram] at hparse
    rw [Session.run_error hparse] at h
    obtain rfl : r.report = errors := Status.compileError.inj h
    have hperm : r.report.Perm r.errors := Reading.report_perm source s.ids
    refine ⟨fun hnil => hr ?_,fun _ => ⟨hperm,Reading.report_ordered source s.ids⟩,fun hnone => absurd hnone hr⟩
    rw [hnil] at hperm
    exact hperm.nil_eq.symm

/-- The value of an assignment is checked first, though it stands on a later line. -/
theorem compile_errors_reported_assignment :
    let this (line : Nat) : Token := ⟨.kwThis,"this",line⟩
    let source := "this.x =\nthis;"
    ∃ (s : Session) (errors : List Error), (s.run Session.budget source).1 = .compileError errors ∧
      errors = [.static .thisOutsideClass (this 2),.static .thisOutsideClass (this 1)] ∧
      ¬ Error.InLineOrder errors ∧ Reading.errors (.ofSource source s.ids) = [] ∧
      ∃ program, Reading.program (.ofSource source s.ids) = .ok program ∧
        errors = (points program).filterMap Point.violation? := by
  intro this source
  have htokens : (scan source).tokens = [this 1,⟨.dot,".",1⟩,⟨.identifier,"x",1⟩,⟨.equal,"=",1⟩,this 2,
      ⟨.semicolon,";",2⟩,.eof 2] := by decide +kernel
  have herrors : (scan source).errors = [] := by decide +kernel
  let program : List Stmt := [.expression (.set (.this (.numbered 0) (this 1)) ⟨.identifier,"x",1⟩
    (.this (.numbered 1) (this 2)))]
  let s := Session.new .unlimited (.startingAt 0)
  have hread : (Reading.ofSource source s.ids).program = .ok program := by
    simp only [Reading.program,Reading.errors,Reading.ofSource,htokens,herrors]
    cbv
  have hnone : (Reading.ofSource source s.ids).errors = [] := by
    simp only [Reading.errors,Reading.ofSource,htokens,herrors]
    cbv
  let found : List Error := [.static .thisOutsideClass (this 2),.static .thisOutsideClass (this 1)]
  have hpoints : (points program).filterMap Point.violation? = found := by decide +kernel
  have hparse := Session.parse_eq (s.announce source) source
  rw [show (Reading.ofSource source (s.announce source).ids).program = .ok program from hread] at hparse
  have hrun : (s.run Session.budget source).1 = .compileError found := by
    rw [Session.run_ok hparse,Session.execute_compileError,resolve_errors (Session.parse_regular hparse).proper]
    exact ⟨by simp [found],hpoints.symm⟩
  obtain ⟨-,-,hscoping⟩ := compile_errors_reported hrun
  obtain ⟨_,hprogram,-,hviolations,-⟩ := hscoping hnone
  refine ⟨s,found,hrun,rfl,?_,hnone,_,hprogram,hviolations⟩
  rintro ⟨lines,hlines,hsorted⟩
  obtain rfl : lines = [2,1] := by
    have hmap : ([2,1] : List Nat).map some = lines.map some := hlines
    exact (List.map_injective_iff.mpr (Option.some_injective Nat) hmap).symm
  exact absurd hsorted (by decide)

end Lox

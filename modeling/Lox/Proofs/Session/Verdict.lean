import Lox.Proofs.Scoping.Diagnosis
import Lox.Proofs.Session.Outcome
import Mathlib

/-! An execution is rejected for the violations of the rules of scoping that are in its program, and for nothing
else. -/
namespace Lox

/-- For a program that has been parsed, the errors of scoping are the violations at its points, in their
order, and it is accepted if and only if there is none. An execution ends with a compile error in no
other case. -/
theorem resolve_diagnoses {s s' : Session} {source : String} {program : List Stmt}
    (h : s.parse source = (.ok program,s')) :
    (resolve program).errors = (points program).filterMap Point.violation? ∧
      ((resolve program).errors = [] ↔ ∀ p ∈ points program, p.violation? = none) ∧
      ∀ (t : Session) budget errors, (t.execute budget program).1 = .compileError errors ↔
        errors ≠ [] ∧ errors = (points program).filterMap Point.violation? := by
  have herrors := resolve_errors (Session.parse_regular h).proper
  refine ⟨herrors,?_,fun t budget errors => ?_⟩
  · rw [herrors,List.filterMap_eq_nil_iff]
  · rw [Session.execute_compileError,herrors]

theorem resolve_diagnoses_initializer :
    let a : Token := ⟨.identifier,"A",1⟩
    let b : Token := ⟨.identifier,"b",1⟩
    ∃ s program s', Session.parse s
        "class A < A \x7b init() \x7b var b = b; return b; \x7d \x7d" = (.ok program,s') ∧
      (resolve program).errors = [.static .inheritsItself a,.static .ownInitializer b,
        .static .returnFromInitializer ⟨.kwReturn,"return",1⟩] := by
  intro a b
  let source := "class A < A \x7b init() \x7b var b = b; return b; \x7d \x7d"
  let program : List Stmt := [.class a (some (.variable (.numbered 0) a)) [⟨⟨.identifier,"init",1⟩,[],
    [.var b (some (.variable (.numbered 1) b)),
      .return ⟨.kwReturn,"return",1⟩ (some (.variable (.numbered 2) b))]⟩]]
  have htokens : (scan source).tokens = [⟨.kwClass,"class",1⟩,a,⟨.less,"<",1⟩,a,⟨.leftBrace,"\x7b",1⟩,
      ⟨.identifier,"init",1⟩,⟨.leftParen,"(",1⟩,⟨.rightParen,")",1⟩,⟨.leftBrace,"\x7b",1⟩,
      ⟨.kwVar,"var",1⟩,b,⟨.equal,"=",1⟩,b,⟨.semicolon,";",1⟩,⟨.kwReturn,"return",1⟩,b,⟨.semicolon,";",1⟩,
      ⟨.rightBrace,"\x7d",1⟩,⟨.rightBrace,"\x7d",1⟩,.eof 1] := by decide +kernel
  have herrors : (scan source).errors = [] := by decide +kernel
  have hprogram : (Reading.ofSource source ⟨0⟩).program = .ok program := by
    simp only [Reading.program,Reading.errors,Reading.ofSource,htokens,herrors]
    cbv
  let s := Session.new .unlimited (.startingAt 0)
  have hparse : s.parse source = (.ok program,(s.read source).2) := by
    have hread : (Reading.ofSource source s.ids).program = .ok program := hprogram
    rw [Session.parse_eq,hread]
  have hdiagnosed := (resolve_diagnoses hparse).1
  have hpoints : (points program).filterMap Point.violation? = [.static .inheritsItself a,
      .static .ownInitializer b,.static .returnFromInitializer ⟨.kwReturn,"return",1⟩] := by
    decide +kernel
  exact ⟨s,program,_,hparse,hdiagnosed.trans hpoints⟩

end Lox

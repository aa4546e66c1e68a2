import Lox.Proofs.Syntax.Seam

/-! Each rule does the same on both sides of a seam. An expression may go on behind it; statements and declarations
close in front of it. -/
namespace Lox
namespace Parser

variable {α : Type} {c : Seam} {p : Parser α}

/-! ### Lists -/

theorem manyUntil_joins {item : Parser (Option α)} (h : Joins c True item) (closing : List Kind) (n : Nat) :
    Joins c True (manyUntil closing item n) := by
  induction n with
  | zero => exact .pure []
  | succ n ih => exact Joins.peek.bind fun t => .ite (.pure []) (h.bind fun found => ih.bind fun others => .pure _)

theorem limited_joins (h : Joins c True p) (fault : SyntaxFault) (count : Nat) :
    Joins c True (limited p fault count) := by
  unfold limited
  split
  · exact Joins.peek.bind fun t => (Joins.report fault t).bind fun _ => h
  · exact h

theorem commaSeparated_joins (h : Joins c True p) (fault : SyntaxFault) (n : Nat) :
    ∀ count, Joins c True (commaSeparated p fault n count) := by
  induction n with
  | zero => exact fun count => (limited_joins h fault count).bind fun _ => .pure _
  | succ n ih =>
    refine fun count => (limited_joins h fault count).bind fun x => (Joins.take? (by simp)).bind fun found => ?_
    cases found with
    | none => exact .pure _
    | some => exact (ih _).bind fun _ => .pure _

theorem listed_joins (h : Joins c True p) (fault : SyntaxFault) (n : Nat) : Joins c True (listed p fault n) :=
  Joins.peek.bind fun _ => .ite (.pure []) (commaSeparated_joins h fault n 0)

/-! ### Expressions -/

section Expressions

variable {inner operand : Parser Expr}

theorem expect_joins {kind : Kind} (hkind : kind ≠ .eof) (what : Expectation) : Joins c True (expect kind what) :=
  (Closes.expect hkind what).loosely

theorem primary_joins (h : Joins c True inner) : Joins c True (primary inner) := by
  refine Joins.peek.bind fun t => ?_
  cases t.kind with
  | kwFalse | kwTrue | kwNil | number | string => exact Joins.skip.bind fun _ => .pure _
  | identifier | kwThis => exact Joins.freshId.bind fun _ => Joins.skip.bind fun _ => .pure _
  | kwSuper =>
    exact Joins.skip.bind fun _ => (expect_joins (by simp) _).bind fun _ =>
      (expect_joins (by simp) _).bind fun _ => Joins.freshId.bind fun _ => .pure _
  | leftParen =>
    exact Joins.skip.bind fun _ => h.bind fun _ => (expect_joins (by simp) _).bind fun _ => .pure _
  | _ => exact (Closes.fail _).loosely

theorem suffixes_joins {arguments : Parser (List Expr)} (h : Joins c True arguments) (n : Nat) :
    ∀ e, Joins c True (suffixes arguments n e) := by
  induction n with
  | zero => exact fun e => .pure e
  | succ n ih =>
    refine fun e => (Joins.take? (by simp)).bind fun found => ?_
    cases found with
    | none => exact .pure e
    | some t =>
      exact .ite (h.bind fun _ => (expect_joins (by simp) _).bind fun _ => ih _)
        ((expect_joins (by simp) _).bind fun _ => ih _)

theorem unary_joins (h : Joins c True operand) (n : Nat) : Joins c True (unary operand n) := by
  induction n with
  | zero => exact h
  | succ n ih =>
    refine (Joins.take? (by simp)).bind fun found => ?_
    cases found with
    | none => exact h
    | some => exact ih.bind fun _ => .pure _

theorem leftGrouped_joins (node : Expr → Token → Expr → Expr) (operators : List Kind)
    (hoperators : Kind.eof ∉ operators) (h : Joins c True operand) (n : Nat) :
    Joins c True (leftGrouped node operators operand n) := by
  have hchain : ∀ left, Joins c True (chain node operators operand n left) := by
    induction n with
    | zero => exact fun left => .pure left
    | succ n ih =>
      refine fun left => (Joins.take? hoperators).bind fun found => ?_
      cases found with
      | none => exact .pure left
      | some => exact h.bind fun _ => ih _
  exact h.bind hchain

theorem ternary_joins (h : Joins c True inner) (hoperand : Joins c True operand) (n : Nat) :
    Joins c True (ternary inner operand n) := by
  induction n with
  | zero => exact hoperand
  | succ n ih =>
    refine hoperand.bind fun condition => (Joins.take? (by simp)).bind fun found => ?_
    cases found with
    | none => exact .pure condition
    | some => exact h.bind fun _ => (expect_joins (by simp) _).bind fun _ => ih.bind fun _ => .pure _

theorem assignment_joins (h : Joins c True operand) (n : Nat) : Joins c True (assignment operand n) := by
  induction n with
  | zero => exact h
  | succ n ih =>
    refine h.bind fun target => (Joins.take? (by simp)).bind fun found => ?_
    cases found with
    | none => exact .pure target
    | some equals =>
      refine ih.bind fun value => ?_
      cases target with
      | «variable» => exact Joins.freshId.bind fun _ => .pure _
      | get => exact .pure _
      | _ => exact (Joins.report _ _).bind fun _ => .pure _

theorem expression_joins (n : Nat) : Joins c True (expression n) := by
  induction n with
  | zero => exact (Closes.fail _).loosely
  | succ n ih =>
    have hcall : Joins c True (call (expression n) n) :=
      (primary_joins ih).bind (suffixes_joins (listed_joins ih _ n) n)
    have hfactor := leftGrouped_joins .binary [.slash,.star] (by simp) (unary_joins hcall n) n
    have hterm := leftGrouped_joins .binary [.minus,.plus] (by simp) hfactor n
    have hcomparison :=
      leftGrouped_joins .binary [.greater,.greaterEqual,.less,.lessEqual] (by simp) hterm n
    have hequality := leftGrouped_joins .binary [.bangEqual,.equalEqual] (by simp) hcomparison n
    have hand := leftGrouped_joins .logical [.kwAnd] (by simp) (ternary_joins ih hequality n) n
    have hor := leftGrouped_joins .logical [.kwOr] (by simp) hand n
    exact assignment_joins hor n

end Expressions

/-! ### Statements -/

section Statements

variable {statement : Parser Stmt} {further : Parser (Option Stmt)}

theorem block_closes (h : Closes c further) (n : Nat) : Closes c (block further n) :=
  .after (manyUntil_joins h.loosely _ n) fun _ => (Closes.expect (by simp) _).bind fun _ => .pure _

theorem function_closes (kind : FunctionKind) (h : Closes c further) (n : Nat) :
    Closes c (function kind further n) := by
  refine (Closes.expect (by simp) _).bind fun _ => ((Closes.expect (by simp) _).bind fun _ => ?_).toJoins
  refine (Closes.after (listed_joins (expect_joins (by simp) _) _ n) fun parameters => ?_).toJoins
  refine (Closes.expect (by simp) _).bind fun _ => ((Closes.expect (by simp) _).bind fun _ => ?_).toJoins
  exact ((block_closes h n).bind fun _ => .pure _).toJoins

theorem superclassClause_joins : Joins c True superclassClause := by
  refine (Joins.take? (by simp)).bind fun found => ?_
  cases found with
  | none => exact .pure none
  | some => exact (expect_joins (by simp) _).bind fun _ => Joins.freshId.bind fun _ => .pure _

theorem classDeclaration_closes (h : Closes c further) (n : Nat) : Closes c (classDeclaration further n) := by
  refine (Closes.expect (by simp) _).bind fun _ => (Closes.after superclassClause_joins fun _ => ?_).toJoins
  refine (Closes.expect (by simp) _).bind fun _ => ?_
  refine (Closes.after (manyUntil_joins (function_closes .method h n).map.loosely _ n) fun _ => ?_).toJoins
  exact (Closes.expect (by simp) _).bind fun _ => (Joins.note _).bind fun _ => .pure _

theorem expressionUnless_joins (kind : Kind) (n : Nat) : Joins c True (expressionUnless kind n) :=
  Joins.peek.bind fun _ => .ite (.pure none) (expression_joins n).map

theorem varDeclaration_closes (n : Nat) : Closes c (varDeclaration n) := by
  have hinitial : Joins c True (initialValue n) := by
    refine (Joins.take? (by simp)).bind fun found => ?_
    cases found with
    | none => exact .pure none
    | some => exact (expression_joins n).map
  refine (Closes.expect (by simp) _).bind fun _ => (Closes.after hinitial fun _ => ?_).toJoins
  exact (Closes.expect (by simp) _).bind fun _ => .pure _

theorem expressionStatement_closes (n : Nat) : Closes c (expressionStatement n) :=
  .after (expression_joins n) fun _ => (Closes.expect (by simp) _).bind fun _ => .pure _

theorem forInitializer_joins (n : Nat) : Joins c True (forInitializer n) := by
  refine (Joins.take? (by simp)).bind fun found => ?_
  cases found with
  | none => exact (expressionStatement_closes n).map.loosely
  | some => exact .ite (.pure none) (varDeclaration_closes n).map.loosely

theorem forStatement_closes (keyword : Token) (h : Closes c statement) (n : Nat) :
    Closes c (forStatement keyword statement n) := by
  refine (Closes.expect (by simp) _).bind fun _ => (Closes.after (forInitializer_joins n) fun _ => ?_).toJoins
  refine .after (expressionUnless_joins _ n) fun _ => (Closes.expect (by simp) _).bind fun _ => ?_
  refine (Closes.after (expressionUnless_joins _ n) fun _ => ?_).toJoins
  refine (Closes.expect (by simp) _).bind fun _ => (h.bind fun _ => ?_).toJoins
  exact (Joins.note _).bind fun _ => .pure _

theorem ifStatement_closes (h : Closes c statement) (n : Nat) : Closes c (ifStatement statement n) := by
  refine (Closes.expect (by simp) _).bind fun _ => (Closes.after (expression_joins n) fun _ => ?_).toJoins
  refine (Closes.expect (by simp) _).bind fun _ => (h.bind fun _ => ?_).toJoins
  refine Joins.take?_else.bind fun found => ?_
  cases found with
  | none => exact .pure _
  | some => exact (h.bind fun _ => .pure _).toJoins

theorem whileStatement_closes (h : Closes c statement) (n : Nat) : Closes c (whileStatement statement n) := by
  refine (Closes.expect (by simp) _).bind fun _ => (Closes.after (expression_joins n) fun _ => ?_).toJoins
  exact (Closes.expect (by simp) _).bind fun _ => (h.bind fun _ => .pure _).toJoins

theorem returnStatement_closes (keyword : Token) (n : Nat) : Closes c (returnStatement keyword n) :=
  .after (expressionUnless_joins _ n) fun _ => (Closes.expect (by simp) _).bind fun _ => .pure _

theorem printStatement_closes (n : Nat) : Closes c (printStatement n) :=
  .after (expression_joins n) fun _ => (Closes.expect (by simp) _).bind fun _ => .pure _

theorem statement_closes (h : Closes c statement) (hd : Closes c further) (n : Nat) :
    Closes c (Parser.statement statement further n) := by
  refine .bind_take? (by simp) (expressionStatement_closes n) fun t _ => ?_
  dsimp only
  split
  · exact (forStatement_closes t h n).toJoins
  · exact (ifStatement_closes h n).toJoins
  · exact (whileStatement_closes h n).toJoins
  · exact (returnStatement_closes t n).toJoins
  · exact (block_closes hd n).map.toJoins
  · exact (printStatement_closes n).toJoins

end Statements

/-! ### Recovery -/

/-- A search for a statement boundary stops behind the last semicolon at the latest, hence in front of the seam. -/
theorem boundary_seam {us : List Token} {previous : Token} (hinside : ∀ t ∈ us, t.kind ≠ .eof)
    (hlast : ∀ t ∈ (previous :: us).getLast?, t.kind = .semicolon) :
    ∃ vs, vs <:+ us ∧ boundary previous (us ++ [c.mark]) = vs ++ [c.mark] ∧
      boundary previous (us ++ c.later) = vs ++ c.later := by
  induction us generalizing previous with
  | nil =>
    have hprevious : previous.kind = .semicolon := hlast previous (by simp)
    obtain ⟨t,ts,hts⟩ := c.ended.exists_cons
    exact ⟨[],List.suffix_refl _,by simp [boundary,hprevious],by simp [hts,boundary,hprevious]⟩
  | cons t us ih =>
    obtain ⟨-,hinside'⟩ := List.forall_mem_cons.mp hinside
    obtain ⟨vs,hvs,hfirst,hsecond⟩ := ih hinside' (by rwa [List.getLast?_cons_cons] at hlast)
    simp only [List.cons_append,boundary]
    split
    · exact ⟨t :: us,List.suffix_refl _,rfl,rfl⟩
    · exact ⟨vs,hvs.trans (List.suffix_cons t us),hfirst,hsecond⟩

theorem recover_seam {us : List Token} (hne : us ≠ []) (hinside : ∀ t ∈ us, t.kind ≠ .eof)
    (hlast : ∀ t ∈ us.getLast?, t.kind = .semicolon) :
    ∃ vs, vs <:+ us ∧ recover (us ++ [c.mark]) = vs ++ [c.mark] ∧ recover (us ++ c.later) = vs ++ c.later := by
  obtain ⟨t,us,rfl⟩ := List.exists_cons_of_ne_nil hne
  obtain ⟨ht,hinside'⟩ := List.forall_mem_cons.mp hinside
  obtain ⟨vs,hvs,hfirst,hsecond⟩ := boundary_seam (c := c) hinside' hlast
  have hmark : t.isEof = false := by simpa [Token.isEof] using ht
  refine ⟨vs,hvs.trans (List.suffix_cons t us),?_,?_⟩
  · simpa [recover,hmark] using hfirst
  · simpa [recover,hmark] using hsecond

theorem recovering_closes {p : Parser Stmt} (h : Closes c p) : Closes c (recovering p) := by
  refine ⟨⟨.recovering h.keeps,fun us r s hrs => ?_⟩,fun r hr => ?_⟩
  · have hfound := found_recovering p r
    simp only [recovering] at hfound ⊢
    generalize hx : p r = x, hy : p s = y
    have hxy := hx ▸ hy ▸ h.abreast hrs
    rw [hx] at hfound
    cases hxy with
    | ok hvs hrs' => exact .ok hvs ⟨hrs'.first,hrs'.second,hrs'.inside,hrs'.last,hrs'.allocated,hrs'.errors⟩
    | @error vs e r' s' hvs hne hrs' =>
      rcases hrs'.last with hspotless | hlast
      · exact .excluded ⟨e,by simp [found,Reader.record],.inl hspotless⟩
      · obtain ⟨ws,hws,hfirst,hsecond⟩ := recover_seam (c := c) hne hrs'.inside hlast
        have hforward := hrs'.forward hws
        simp only [hrs'.first,hrs'.second,hfirst,hsecond]
        exact .ok (hws.trans hvs)
          ⟨rfl,rfl,hforward.inside,hforward.last,hrs'.allocated,congrArg (e :: ·) hrs'.errors⟩
    | ended hl => exact hl.elim
    | excluded he => exact .excluded (hfound.symm ▸ he)
  · rw [found_recovering]
    exact h.fails r hr

theorem declarationOf_closes {statement : Parser Stmt} {further : Parser (Option Stmt)} (h : Closes c statement)
    (hd : Closes c further) (n : Nat) : Closes c (declarationOf statement further n) := by
  refine .after .peek fun t => .after (.note _) fun _ => recovering_closes (.bind_take? (by simp) h fun t _ => ?_)
  dsimp only
  split
  · exact (classDeclaration_closes hd n).toJoins
  · exact (function_closes .function hd n).map.toJoins
  · exact (varDeclaration_closes n).toJoins

theorem innerStatement_declaration_closes (n : Nat) : Closes c (innerStatement n) ∧ Closes c (declaration n) := by
  induction n with
  | zero => exact ⟨.fail _,recovering_closes (.fail _)⟩
  | succ n ih =>
    have hstatement := statement_closes ih.1 ih.2 (n + 1)
    exact ⟨hstatement,declarationOf_closes hstatement ih.2 (n + 1)⟩

end Parser
end Lox

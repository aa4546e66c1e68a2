import Lox.Syntax.Parse

/-! A parse finds syntax errors and no others. -/
namespace Lox

def Error.IsSyntactic (e : Error) : Prop := ∃ fault found, e = .syntactic fault found

def Reader.Syntactic (r : Reader) : Prop := ∀ e ∈ r.errors, e.IsSyntactic

theorem Reader.Syntactic.record {r : Reader} {e : Error} (h : r.Syntactic) (he : e.IsSyntactic) :
    (r.record e).Syntactic := List.forall_mem_cons.mpr ⟨he,h⟩

namespace Parser

/-- What the parser records and what it stops with are syntax errors. -/
structure Syntactic {α : Type} (p : Parser α) : Prop where
  ok : ∀ {r a r'}, r.Syntactic → p r = .ok a r' → r'.Syntactic
  error : ∀ {r e r'}, r.Syntactic → p r = .error e r' → e.IsSyntactic ∧ r'.Syntactic

variable {α β : Type} {p : Parser α}

namespace Syntactic

theorem pure (a : α) : Syntactic (pure a : Parser α) where
  ok hr hp := by
    cases hp
    exact hr
  error _ hp := by cases hp

theorem bind {f : α → Parser β} (h : Syntactic p) (hf : ∀ a, Syntactic (f a)) : Syntactic (p >>= f) where
  ok {r b r''} hr hp := by
    simp only [Bind.bind,EStateM.bind] at hp
    split at hp
    next a r' ha => exact (hf a).ok (h.ok hr ha) hp
    next => cases hp
  error {r e r''} hr hp := by
    simp only [Bind.bind,EStateM.bind] at hp
    split at hp
    next a r' ha => exact (hf a).error (h.ok hr ha) hp
    next he =>
      cases hp
      exact h.error hr he

theorem map {f : α → β} (h : Syntactic p) : Syntactic (f <$> p) := by
  rw [map_eq_pure_bind]
  exact h.bind fun a => .pure (f a)

/-- A step that stops with no error and records none. -/
theorem of_silent (h : ∀ r, ∃ a r', p r = .ok a r' ∧ r'.errors = r.errors) : Syntactic p where
  ok {r a r'} hr hp := by
    obtain ⟨b,r₁,hb,herrors⟩ := h r
    obtain ⟨-,rfl⟩ : a = b ∧ r' = r₁ := by
      cases hp.symm.trans hb
      exact ⟨rfl,rfl⟩
    rwa [Reader.Syntactic,herrors]
  error {r e r'} hr hp := by
    obtain ⟨b,r₁,hb,-⟩ := h r
    cases hp.symm.trans hb

end Syntactic

/-! ### Steps -/

theorem note_syntactic (e : Event) : Syntactic (note e) := .of_silent fun _ => ⟨_,_,rfl,rfl⟩

theorem peek_syntactic : Syntactic peek := .of_silent fun _ => ⟨_,_,rfl,rfl⟩

theorem freshId_syntactic : Syntactic freshId := .of_silent fun _ => ⟨_,_,rfl,rfl⟩

theorem skip_syntactic : Syntactic skip := .of_silent fun r => by
  refine ⟨_,_,rfl,?_⟩
  dsimp only
  split
  · split <;> rfl
  · rfl

theorem take?_syntactic (kinds : List Kind) : Syntactic (take? kinds) := .of_silent fun r => by
  simp only [take?]
  split
  · split
    · exact ⟨_,_,rfl,rfl⟩
    · exact ⟨_,_,rfl,rfl⟩
  · exact ⟨_,_,rfl,rfl⟩

theorem fail_syntactic (fault : SyntaxFault) : Syntactic (fail fault : Parser α) where
  ok _ hp := by cases hp
  error hr hp := by
    cases hp
    exact ⟨⟨_,_,rfl⟩,hr⟩

theorem report_syntactic (fault : SyntaxFault) (found : Token) : Syntactic (report fault found) where
  ok hr hp := by
    cases hp
    exact Reader.Syntactic.record hr ⟨_,_,rfl⟩
  error _ hp := by cases hp

theorem expect_syntactic (kind : Kind) (what : Expectation) : Syntactic (expect kind what) := by
  refine (take?_syntactic _).bind fun found => ?_
  cases found with
  | none => exact fail_syntactic _
  | some t => exact .pure t

/-! ### Lists -/

theorem manyUntil_syntactic {item : Parser (Option α)} (h : Syntactic item) (closing : List Kind) (n : Nat) :
    Syntactic (manyUntil closing item n) := by
  induction n with
  | zero => exact .pure _
  | succ n ih =>
    refine peek_syntactic.bind fun t => ?_
    split
    · exact .pure _
    · exact h.bind fun _ => ih.bind fun _ => .pure _

theorem limited_syntactic (h : Syntactic p) (fault : SyntaxFault) (count : Nat) :
    Syntactic (limited p fault count) := by
  unfold limited
  split
  · exact peek_syntactic.bind fun _ => (report_syntactic _ _).bind fun _ => h
  · exact h

theorem commaSeparated_syntactic (h : Syntactic p) (fault : SyntaxFault) (n : Nat) :
    ∀ count, Syntactic (commaSeparated p fault n count) := by
  induction n with
  | zero => exact fun count => (limited_syntactic h fault count).bind fun _ => .pure _
  | succ n ih =>
    refine fun count => (limited_syntactic h fault count).bind fun x => (take?_syntactic _).bind fun found => ?_
    cases found with
    | none => exact .pure _
    | some => exact (ih _).bind fun _ => .pure _

theorem listed_syntactic (h : Syntactic p) (fault : SyntaxFault) (n : Nat) :
    Syntactic (listed p fault n) := by
  refine peek_syntactic.bind fun t => ?_
  split
  · exact .pure _
  · exact commaSeparated_syntactic h fault n 0

/-! ### Expressions -/

variable {inner operand : Parser Expr}

theorem primary_syntactic (h : Syntactic inner) : Syntactic (primary inner) := by
  refine peek_syntactic.bind fun t => ?_
  cases t.kind with
  | kwFalse | kwTrue | kwNil | number | string => exact skip_syntactic.bind fun _ => .pure _
  | identifier | kwThis => exact freshId_syntactic.bind fun _ => skip_syntactic.bind fun _ => .pure _
  | kwSuper =>
    refine skip_syntactic.bind fun _ => (expect_syntactic _ _).bind fun _ => ?_
    exact (expect_syntactic _ _).bind fun _ => freshId_syntactic.bind fun _ => .pure _
  | leftParen =>
    exact skip_syntactic.bind fun _ => h.bind fun _ => (expect_syntactic _ _).bind fun _ => .pure _
  | _ => exact fail_syntactic _

theorem suffixes_syntactic {arguments : Parser (List Expr)} (h : Syntactic arguments) (n : Nat) :
    ∀ e, Syntactic (suffixes arguments n e) := by
  induction n with
  | zero => exact fun e => .pure e
  | succ n ih =>
    refine fun e => (take?_syntactic _).bind fun found => ?_
    cases found with
    | none => exact .pure e
    | some t =>
      dsimp only
      split
      · exact h.bind fun _ => (expect_syntactic _ _).bind fun _ => ih _
      · exact (expect_syntactic _ _).bind fun _ => ih _

theorem unary_syntactic (h : Syntactic operand) (n : Nat) : Syntactic (unary operand n) := by
  induction n with
  | zero => exact h
  | succ n ih =>
    refine (take?_syntactic _).bind fun found => ?_
    cases found with
    | none => exact h
    | some => exact ih.bind fun _ => .pure _

theorem leftGrouped_syntactic (node : Expr → Token → Expr → Expr) (operators : List Kind)
    (h : Syntactic operand) (n : Nat) : Syntactic (leftGrouped node operators operand n) := by
  have hchain : ∀ left, Syntactic (chain node operators operand n left) := by
    induction n with
    | zero => exact fun left => .pure left
    | succ n ih =>
      refine fun left => (take?_syntactic _).bind fun found => ?_
      cases found with
      | none => exact .pure left
      | some => exact h.bind fun _ => ih _
  exact h.bind hchain

theorem ternary_syntactic (h : Syntactic inner) (hoperand : Syntactic operand) (n : Nat) :
    Syntactic (ternary inner operand n) := by
  induction n with
  | zero => exact hoperand
  | succ n ih =>
    refine hoperand.bind fun condition => (take?_syntactic _).bind fun found => ?_
    cases found with
    | none => exact .pure condition
    | some => exact h.bind fun _ => (expect_syntactic _ _).bind fun _ => ih.bind fun _ => .pure _

theorem assignment_syntactic (h : Syntactic operand) (n : Nat) : Syntactic (assignment operand n) := by
  induction n with
  | zero => exact h
  | succ n ih =>
    refine h.bind fun target => (take?_syntactic _).bind fun found => ?_
    cases found with
    | none => exact .pure target
    | some equals =>
      refine ih.bind fun value => ?_
      cases target with
      | «variable» => exact freshId_syntactic.bind fun _ => .pure _
      | get => exact .pure _
      | _ => exact (report_syntactic _ _).bind fun _ => .pure _

theorem expression_syntactic (n : Nat) : Syntactic (expression n) := by
  induction n with
  | zero => exact fail_syntactic _
  | succ n ih =>
    have hcall : Syntactic (call (expression n) n) :=
      (primary_syntactic ih).bind (suffixes_syntactic (listed_syntactic ih _ n) n)
    have hfactor := leftGrouped_syntactic .binary [.slash,.star] (unary_syntactic hcall n) n
    have hterm := leftGrouped_syntactic .binary [.minus,.plus] hfactor n
    have hcomparison := leftGrouped_syntactic .binary [.greater,.greaterEqual,.less,.lessEqual] hterm n
    have hequality := leftGrouped_syntactic .binary [.bangEqual,.equalEqual] hcomparison n
    have hand := leftGrouped_syntactic .logical [.kwAnd] (ternary_syntactic ih hequality n) n
    exact assignment_syntactic (leftGrouped_syntactic .logical [.kwOr] hand n) n

/-! ### Statements -/

variable {statement : Parser Stmt} {further : Parser (Option Stmt)}

theorem expressionUnless_syntactic (kind : Kind) (n : Nat) : Syntactic (expressionUnless kind n) := by
  refine peek_syntactic.bind fun t => ?_
  split
  · exact .pure none
  · exact (expression_syntactic n).map

theorem superclassClause_syntactic : Syntactic superclassClause := by
  refine (take?_syntactic _).bind fun found => ?_
  cases found with
  | none => exact .pure none
  | some => exact (expect_syntactic _ _).bind fun _ => freshId_syntactic.bind fun _ => .pure _

theorem varDeclaration_syntactic (n : Nat) : Syntactic (varDeclaration n) := by
  refine (expect_syntactic _ _).bind fun name => ?_
  refine Syntactic.bind ((take?_syntactic _).bind fun found => ?_) fun _ =>
    (expect_syntactic _ _).bind fun _ => .pure _
  cases found with
  | none => exact .pure none
  | some => exact (expression_syntactic n).map

theorem expressionStatement_syntactic (n : Nat) : Syntactic (expressionStatement n) :=
  (expression_syntactic n).bind fun _ => (expect_syntactic _ _).bind fun _ => .pure _

theorem forInitializer_syntactic (n : Nat) : Syntactic (forInitializer n) := by
  refine (take?_syntactic _).bind fun found => ?_
  cases found with
  | none => exact (expressionStatement_syntactic n).map
  | some t =>
    dsimp only
    split
    · exact .pure none
    · exact (varDeclaration_syntactic n).map

theorem block_syntactic (h : Syntactic further) (n : Nat) : Syntactic (block further n) :=
  (manyUntil_syntactic h _ n).bind fun _ => (expect_syntactic _ _).bind fun _ => .pure _

theorem function_syntactic (h : Syntactic further) (kind : FunctionKind) (n : Nat) :
    Syntactic (function kind further n) := by
  refine (expect_syntactic _ _).bind fun name => (expect_syntactic _ _).bind fun _ => ?_
  refine (listed_syntactic (expect_syntactic _ _) _ n).bind fun parameters => ?_
  refine (expect_syntactic _ _).bind fun _ => (expect_syntactic _ _).bind fun _ => ?_
  exact (block_syntactic h n).bind fun _ => .pure _

theorem classDeclaration_syntactic (h : Syntactic further) (n : Nat) :
    Syntactic (classDeclaration further n) := by
  refine (expect_syntactic _ _).bind fun name => superclassClause_syntactic.bind fun superclass => ?_
  refine (expect_syntactic _ _).bind fun _ => ?_
  refine (manyUntil_syntactic (function_syntactic h .method n).map _ n).bind fun methods => ?_
  exact (expect_syntactic _ _).bind fun _ => (note_syntactic _).bind fun _ => .pure _

theorem forStatement_syntactic (keyword : Token) (h : Syntactic statement) (n : Nat) :
    Syntactic (forStatement keyword statement n) := by
  refine (expect_syntactic _ _).bind fun _ => (forInitializer_syntactic n).bind fun initializer => ?_
  refine (expressionUnless_syntactic _ n).bind fun condition => (expect_syntactic _ _).bind fun _ => ?_
  refine (expressionUnless_syntactic _ n).bind fun increment => (expect_syntactic _ _).bind fun _ => ?_
  exact h.bind fun body => (note_syntactic _).bind fun _ => .pure _

theorem ifStatement_syntactic (h : Syntactic statement) (n : Nat) : Syntactic (ifStatement statement n) := by
  refine (expect_syntactic _ _).bind fun _ => (expression_syntactic n).bind fun condition => ?_
  refine (expect_syntactic _ _).bind fun _ => h.bind fun thenBranch => (take?_syntactic _).bind fun found => ?_
  cases found with
  | none => exact .pure _
  | some => exact h.bind fun _ => .pure _

theorem whileStatement_syntactic (h : Syntactic statement) (n : Nat) :
    Syntactic (whileStatement statement n) :=
  (expect_syntactic _ _).bind fun _ => (expression_syntactic n).bind fun _ =>
    (expect_syntactic _ _).bind fun _ => h.bind fun _ => .pure _

theorem statement_syntactic (h : Syntactic statement) (hd : Syntactic further) (n : Nat) :
    Syntactic (Parser.statement statement further n) := by
  refine (take?_syntactic _).bind fun found => ?_
  cases found with
  | none => exact expressionStatement_syntactic n
  | some t =>
    dsimp only
    split
    · exact forStatement_syntactic t h n
    · exact ifStatement_syntactic h n
    · exact whileStatement_syntactic h n
    · exact (expressionUnless_syntactic _ n).bind fun _ => (expect_syntactic _ _).bind fun _ => .pure _
    · exact (block_syntactic hd n).map
    · exact (expression_syntactic n).bind fun _ => (expect_syntactic _ _).bind fun _ => .pure _

theorem recovering_syntactic {p : Parser Stmt} (h : Syntactic p) : Syntactic (recovering p) where
  ok {r found r'} hr hp := by
    simp only [recovering] at hp
    split at hp <;> cases hp
    next hs => exact h.ok hr hs
    next he =>
      obtain ⟨he,hr'⟩ := h.error hr he
      exact Reader.Syntactic.record hr' he
  error {r e r'} hr hp := by
    simp only [recovering] at hp
    split at hp <;> cases hp

theorem declarationOf_syntactic (h : Syntactic statement) (hd : Syntactic further) (n : Nat) :
    Syntactic (declarationOf statement further n) := by
  refine peek_syntactic.bind fun _ => (note_syntactic _).bind fun _ => recovering_syntactic ?_
  refine (take?_syntactic _).bind fun found => ?_
  cases found with
  | none => exact h
  | some t =>
    dsimp only
    split
    · exact classDeclaration_syntactic hd n
    · exact (function_syntactic hd .function n).map
    · exact varDeclaration_syntactic n

theorem innerStatement_declaration_syntactic (n : Nat) :
    Syntactic (innerStatement n) ∧ Syntactic (declaration n) := by
  induction n with
  | zero => exact ⟨fail_syntactic _,recovering_syntactic (fail_syntactic _)⟩
  | succ n ih =>
    have hstatement := statement_syntactic ih.1 ih.2 (n + 1)
    exact ⟨hstatement,declarationOf_syntactic hstatement ih.2 (n + 1)⟩

end Parser

theorem parse_errors (ts : List Token) (ids : ExprIds) :
    ∀ e ∈ (parse ts ids).errors, e.IsSyntactic := by
  have hprogram := Parser.manyUntil_syntactic
    (Parser.innerStatement_declaration_syntactic (ts.length + 1)).2 [.eof] (ts.length + 1)
  have hstart : Reader.Syntactic ⟨ts,ids.allocated,[],[.parsing,.parserCreated ts.length]⟩ :=
    fun _ h => nomatch h
  simp only [parse]
  split
  next hr => exact fun e he => hprogram.ok hstart hr e (List.mem_reverse.mp he)
  next hr =>
    obtain ⟨he,hr'⟩ := hprogram.error hstart hr
    exact fun e h => hr'.record he e (List.mem_reverse.mp h)

end Lox

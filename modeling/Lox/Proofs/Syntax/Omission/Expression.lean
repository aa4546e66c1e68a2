import Lox.Proofs.Syntax.FirstToken
import Lox.Proofs.Syntax.Omission

/-! Expressions and parameters contain no semicolon: the one that is left out stands behind them. -/
namespace Lox
namespace Parser

variable {α : Type} {c : Omission} {k : Nat} {p : Parser α}

/-! ### Lists -/

theorem limited_ahead (h : Ahead c k p) (fault : SyntaxFault) (count : Nat) : Ahead c k (limited p fault count) := by
  unfold limited
  split
  · have hreported : ∀ ⦃r a r'⦄, (peek >>= fun t => report fault t >>= fun _ => p) r = .ok a r' →
        r.errors.length < r'.errors.length := fun r a r' hp => h.grows.ok hp
    exact ⟨.bind (.of_sound peek_sound) fun t => .bind (.of_sound (report_sound fault t)) fun _ => h.grows,
      fun _ _ r a r' _ _ hp herrors => absurd herrors (Nat.ne_of_gt (hreported hp))⟩
  · exact h

theorem commaSeparated_ahead (h : Ahead c k p) (fault : SyntaxFault) (n : Nat) :
    ∀ count, Ahead c k (commaSeparated p fault n count) := by
  induction n with
  | zero => exact fun count => (limited_ahead h fault count).bind fun _ => .pure _
  | succ n ih =>
    refine fun count => (limited_ahead h fault count).bind fun x => ?_
    refine Ahead.bind (.take? (by simp) (by simp) (by simp)) fun found => ?_
    cases found with
    | none => exact .pure _
    | some => exact (ih _).bind fun _ => .pure _

/-- A choice by a next token that is neither the semicolon nor the brace. -/
theorem unless_ahead {kind : Kind} (hsemicolon : kind ≠ .semicolon) (hbrace : kind ≠ .rightBrace)
    (h : Ahead c k p) (a : α) : Ahead c k (peek >>= fun t => if t.kind = kind then pure a else p) := by
  refine .of_peek (fun t => ?_) (.bind_peek ?_ ?_) fun t ts => ?_
  · split
    · exact .pure a
    · exact h.grows
  · simp [c.isBrace,c.isSemicolon,hsemicolon.symm,hbrace.symm]
  · rw [c.isSemicolon,if_neg hsemicolon.symm]
    exact h.cut []
  · split
    · exact (Staged.pure a).cut _
    · exact h.cut _

theorem listed_ahead (h : Ahead c k p) (fault : SyntaxFault) (n : Nat) : Ahead c k (listed p fault n) :=
  unless_ahead (by simp) (by simp) (commaSeparated_ahead h fault n 0) []

/-! ### Expressions -/

section Expressions

variable {inner operand : Parser Expr}

theorem primary_ahead (h : Ahead c k inner) : Ahead c k (primary inner) := by
  have hskip : Grows skip := .of_sound skip_sound
  have hexpect {kind : Kind} {what : Expectation} (hkind : kind ≠ .eof) (hsemicolon : kind ≠ .semicolon) :
      Ahead c k (expect kind what) := .expect hkind hsemicolon
  have hfreshId : Ahead c k freshId := .freshId
  have hsuper (t : Token) : Ahead c k (do
      let _ ← expect .dot .superDot
      let method ← expect .identifier .superMethod
      return Expr.super (← freshId) t method) :=
    (hexpect (by simp) (by simp)).bind fun _ => (hexpect (by simp) (by simp)).bind fun _ =>
      hfreshId.bind fun _ => .pure _
  have hgroup : Ahead c k (do
      let e ← inner
      let _ ← expect .rightParen .groupEnd
      return Expr.grouping e) := h.bind fun _ => (hexpect (by simp) (by simp)).bind fun _ => .pure _
  refine .of_peek (fun t => ?_) (.bind_peek ?_ ?_) fun t ts => ?_
  · cases t.kind with
    | kwFalse | kwTrue | kwNil | number | string => exact hskip.bind fun _ => .pure _
    | identifier | kwThis => exact hfreshId.grows.bind fun _ => hskip.bind fun _ => .pure _
    | kwSuper => exact hskip.bind fun _ => (hsuper t).grows
    | leftParen => exact hskip.bind fun _ => hgroup.grows
    | _ => exact .fail _
  · simp [c.isBrace,c.isSemicolon]
  · rw [c.isSemicolon]
    exact (Staged.fail _).cut _
  · cases ht : t.kind with
    | kwFalse | kwTrue | kwNil | number | string => exact .bind_skip (by simp [ht]) ((Staged.pure _).cut _)
    | identifier | kwThis => exact .bind_freshId fun _ => .bind_skip (by simp [ht]) ((Staged.pure _).cut _)
    | kwSuper => exact .bind_skip (by simp [ht]) ((hsuper t).cut _)
    | leftParen => exact .bind_skip (by simp [ht]) (hgroup.cut _)
    | _ => exact (Staged.fail _).cut _

theorem suffixes_ahead {arguments : Parser (List Expr)} (h : Ahead c k arguments) (n : Nat) :
    ∀ e, Ahead c k (suffixes arguments n e) := by
  induction n with
  | zero => exact fun e => .pure e
  | succ n ih =>
    refine fun e => Ahead.bind (.take? (by simp) (by simp) (by simp)) fun found => ?_
    cases found with
    | none => exact .pure e
    | some t =>
      dsimp only
      split
      · exact h.bind fun _ => Ahead.bind (.expect (by simp) (by simp)) fun _ => ih _
      · exact Ahead.bind (.expect (by simp) (by simp)) fun _ => ih _

theorem unary_ahead (h : Ahead c k operand) (n : Nat) : Ahead c k (unary operand n) := by
  induction n with
  | zero => exact h
  | succ n ih =>
    refine Ahead.bind (.take? (by simp) (by simp) (by simp)) fun found => ?_
    cases found with
    | none => exact h
    | some => exact ih.bind fun _ => .pure _

theorem leftGrouped_ahead (node : Expr → Token → Expr → Expr) (operators : List Kind)
    (heof : Kind.eof ∉ operators) (hsemicolon : Kind.semicolon ∉ operators) (hbrace : Kind.rightBrace ∉ operators)
    (h : Ahead c k operand) (n : Nat) : Ahead c k (leftGrouped node operators operand n) := by
  have hchain : ∀ left, Ahead c k (chain node operators operand n left) := by
    induction n with
    | zero => exact fun left => .pure left
    | succ n ih =>
      refine fun left => Ahead.bind (.take? heof hsemicolon hbrace) fun found => ?_
      cases found with
      | none => exact .pure left
      | some => exact h.bind fun _ => ih _
  exact h.bind hchain

theorem ternary_ahead (h : Ahead c k inner) (hoperand : Ahead c k operand) (n : Nat) :
    Ahead c k (ternary inner operand n) := by
  induction n with
  | zero => exact hoperand
  | succ n ih =>
    refine hoperand.bind fun condition => Ahead.bind (.take? (by simp) (by simp) (by simp)) fun found => ?_
    cases found with
    | none => exact .pure condition
    | some => exact h.bind fun _ => Ahead.bind (.expect (by simp) (by simp)) fun _ => ih.bind fun _ => .pure _

theorem assignment_ahead (h : Ahead c k operand) (n : Nat) : Ahead c k (assignment operand n) := by
  induction n with
  | zero => exact h
  | succ n ih =>
    refine h.bind fun target => Ahead.bind (.take? (by simp) (by simp) (by simp)) fun found => ?_
    cases found with
    | none => exact .pure target
    | some equals =>
      refine ih.bind fun value => ?_
      cases target with
      | «variable» => exact Ahead.bind .freshId fun _ => .pure _
      | get => exact .pure _
      | _ => exact Ahead.bind (.report _ _) fun _ => .pure _

theorem expression_ahead (n : Nat) : Ahead c k (expression n) := by
  induction n with
  | zero => exact .fail _
  | succ n ih =>
    have hcall : Ahead c k (call (expression n) n) :=
      (primary_ahead ih).bind (suffixes_ahead (listed_ahead ih _ n) n)
    have hfactor := leftGrouped_ahead .binary [.slash,.star] (by simp) (by simp) (by simp)
      (unary_ahead hcall n) n
    have hterm := leftGrouped_ahead .binary [.minus,.plus] (by simp) (by simp) (by simp) hfactor n
    have hcomparison := leftGrouped_ahead .binary [.greater,.greaterEqual,.less,.lessEqual]
      (by simp) (by simp) (by simp) hterm n
    have hequality := leftGrouped_ahead .binary [.bangEqual,.equalEqual]
      (by simp) (by simp) (by simp) hcomparison n
    have hand := leftGrouped_ahead .logical [.kwAnd] (by simp) (by simp) (by simp)
      (ternary_ahead ih hequality n) n
    have hor := leftGrouped_ahead .logical [.kwOr] (by simp) (by simp) (by simp) hand n
    exact assignment_ahead hor n

end Expressions

/-! ### No expression at the brace -/

/-- The parser stops at the next token without having read anything. -/
def Stuck (fault : SyntaxFault) (t : Token) (ts : List Token) (p : Parser α) : Prop :=
  ∀ i errors events, ∃ events', p ⟨t :: ts,i,errors,events⟩ = .error (.syntactic fault t) ⟨t :: ts,i,errors,events'⟩

section Stuck

variable {β : Type} {fault : SyntaxFault} {t : Token} {ts : List Token} {inner operand : Parser Expr}

namespace Stuck

theorem fail : Stuck fault t ts (fail fault : Parser α) := fun _ _ _ => ⟨_,rfl⟩

theorem bind {f : α → Parser β} (h : Stuck fault t ts p) : Stuck fault t ts (p >>= f) := by
  intro i errors events
  obtain ⟨events',h'⟩ := h i errors events
  exact ⟨events',by simp only [Bind.bind,EStateM.bind,h']⟩

theorem map {f : α → β} (h : Stuck fault t ts p) : Stuck fault t ts (f <$> p) := by
  rw [map_eq_pure_bind]
  exact h.bind

theorem bind_take? {kinds : List Kind} {f : Option Token → Parser β} (ht : t.kind ∉ kinds)
    (h : Stuck fault t ts (f none)) : Stuck fault t ts (take? kinds >>= f) := by
  intro i errors events
  obtain ⟨events',h'⟩ := h i errors events
  exact ⟨events',by simp only [Bind.bind,EStateM.bind,take?,if_neg ht,h']⟩

theorem bind_peek {f : Token → Parser β} (h : Stuck fault t ts (f t)) : Stuck fault t ts (peek >>= f) := h

end Stuck

theorem primary_stuck (h : Grammar.startsPrimary t.kind = false) : Stuck .expectedExpression t ts (primary inner) := by
  refine .bind_peek ?_
  cases ht : t.kind <;> first | exact .fail | simp [ht,Grammar.startsPrimary] at h

theorem unary_stuck (hbang : t.kind ∉ [Kind.bang,Kind.minus]) (h : Stuck fault t ts operand) (n : Nat) :
    Stuck fault t ts (unary operand n) := by
  cases n with
  | zero => exact h
  | succ n => exact .bind_take? hbang h

theorem ternary_stuck (h : Stuck fault t ts operand) (n : Nat) : Stuck fault t ts (ternary inner operand n) := by
  cases n with
  | zero => exact h
  | succ n => exact h.bind

theorem assignment_stuck (h : Stuck fault t ts operand) (n : Nat) : Stuck fault t ts (assignment operand n) := by
  cases n with
  | zero => exact h
  | succ n => exact h.bind

theorem expression_stuck (h : Grammar.startsExpression t.kind = false) (n : Nat) :
    Stuck .expectedExpression t ts (expression n) := by
  cases n with
  | zero => exact .fail
  | succ n =>
    have hprimary : Grammar.startsPrimary t.kind = false := by
      simp only [Grammar.startsExpression,Bool.or_eq_false_iff] at h
      exact h.1.1
    have hsign : t.kind ∉ [Kind.bang,Kind.minus] := fun hmem => by
      simp [Grammar.startsExpression_of_sign hmem] at h
    have hcall : Stuck .expectedExpression t ts (call (expression n) n) := (primary_stuck hprimary).bind
    have hequality : Stuck .expectedExpression t ts (equality (expression n) n) :=
      (unary_stuck hsign hcall n).bind.bind.bind.bind
    exact assignment_stuck (ternary_stuck hequality n).bind.bind n

end Stuck
end Parser
end Lox

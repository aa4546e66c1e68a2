import Lox.Proofs.Syntax.Precedence
import Lox.Proofs.Syntax.Sound

/-! Expressions that are parsed without an error are phrases of the grammar. -/
namespace Lox
namespace Grammar

/-- The yield of a tree that can be assigned to is the name, or ends in the name of the property. -/
def IsTarget (i : Nat) (ts : List Token) (j : Nat) : Expr → Prop
  | .variable id name => name.kind = .identifier ∧ ts = [name] ∧ id = .numbered i ∧ j = i + 1
  | .get object name => ∃ us dot, Expression .call i us object j ∧ dot.kind = .dot ∧
      name.kind = .identifier ∧ ts = us ++ [dot,name]
  | _ => True

theorem Expression.isTarget {l : Precedence} {i j : Nat} {ts : List Token} {e : Expr} :
    Expression l i ts e j → IsTarget i ts j e
  | .operand _ h => h.isTarget
  | .joined (l := l) _ _ _ => by cases l <;> exact trivial
  | .variable h => ⟨h,rfl,rfl,rfl⟩
  | .get h hdot hname => ⟨_,_,h,hdot,hname,rfl⟩
  | .assign _ _ _ | .set _ _ _ _ _ | .ternary _ _ _ _ _ | .unary _ _ | .call _ _ _ _ _ | .literal _
  | .this _ | .super _ _ _ | .group _ _ _ => trivial

end Grammar

namespace Parser

open Grammar

/-- The phrases of a level, whatever follows. -/
def phrase (l : Precedence) : Phrases Expr := fun i ts e j _ => Expression l i ts e j

variable {inner operand : Parser Expr} {l : Precedence}

theorem primary_sound (h : Sound inner (phrase .assignment)) :
    Sound (primary inner) (phrase .primary) := by
  have hliteral {t : Token} {value : Literal} (ht : literal? t.kind = some value) :
      Sound (skip >>= fun _ => Pure.pure (Expr.literal value)) fun i ts e j rest =>
        t = (ts ++ rest).headD (.eof 1) → phrase .primary i ts e j rest := by
    refine .bind_skip (fun hk => ?_) (.pure fun i rest => .literal ht)
    simp [hk,literal?] at ht
  refine .bind_peek fun t => ?_
  split
  next hk => exact hliteral (by rw [hk]; rfl)
  next hk => exact hliteral (by rw [hk]; rfl)
  next hk => exact hliteral (by rw [hk]; rfl)
  next hk => exact hliteral (by rw [hk]; rfl)
  next hk => exact hliteral (by rw [hk]; rfl)
  next hk =>
    refine .bind_freshId_skip (by simp [hk]) fun i => .pure fun j rest hj => ?_
    subst hj
    exact .variable hk
  next hk =>
    refine .bind_freshId_skip (by simp [hk]) fun i => .pure fun j rest hj => ?_
    subst hj
    exact .this hk
  next hk =>
    refine .bind_skip (by simp [hk]) (.bind_expect (by simp) fun dot hdot => ?_)
    refine .bind_expect (by simp) fun method hmethod => .bind_freshId fun i => .pure fun j rest hj => ?_
    subst hj
    exact .super hk hdot hmethod
  next hk =>
    refine .bind_skip (by simp [hk]) (h.bind fun e => .bind_expect (by simp) fun closing hclose => ?_)
    exact .pure fun j rest i us he => .group hk he hclose
  next => exact fail_sound _

theorem suffixes_sound {arguments : Parser (List Expr)}
    (h : Sound arguments fun i ts es j _ => Arguments i ts es j ∧ es.length ≤ maxArguments) (n : Nat) :
    ∀ e, Sound (suffixes arguments n e) fun j vs e' k _ =>
      ∀ i us, Expression .call i us e j → Expression .call i (us ++ vs) e' k := by
  induction n with
  | zero => exact fun e => .pure fun j rest i us he => by simpa using he
  | succ n ih =>
    refine fun e => .bind_take? (by simp) (.pure fun j rest _ i us he => by simpa using he) fun t ht => ?_
    dsimp only
    split
    next hk =>
      refine h.bind fun es => .bind_expect (by simp) fun paren hparen => (ih _).weaken ?_
      intro j vs e' k rest hcall i us ⟨hargs,hlimit⟩ i₀ ts he
      simpa using hcall i₀ _ (.call he hk hargs hlimit hparen)
    next hk =>
      have hdot : t.kind = .dot := by simpa [hk] using ht
      refine .bind_expect (by simp) fun name hname => (ih _).weaken ?_
      intro j vs e' k rest hcall i us he
      simpa using hcall i _ (.get he hdot hname)

theorem limited_sound {α : Type} {item : Parser α} {fault : SyntaxFault} {L : Phrases α}
    (h : Sound item L) (count : Nat) : Sound (limited item fault count) fun i ts a j rest =>
      count < maxArguments ∧ L i ts a j rest := by
  unfold limited
  split
  next => exact .bind_peek fun t => .bind_report h
  next hcount => exact h.weaken fun i ts a j rest ha => ⟨Nat.not_le.mp hcount,ha⟩

section Lists

variable {α : Type} {item : Parser α} {fault : SyntaxFault}
  {P : Nat → List Token → α → Nat → Prop} {Q : Nat → List Token → List α → Nat → Prop}

theorem commaSeparated_sound (h : Sound item fun i ts x j _ => P i ts x j)
    (hone : ∀ {i ts x j}, P i ts x j → Q i ts [x] j)
    (hmore : ∀ {i ts x j comma us xs k}, P i ts x j → comma.kind = .comma → Q j us xs k →
      xs ≠ [] → Q i (ts ++ comma :: us) (x :: xs) k) (n : Nat) :
    ∀ count, Sound (commaSeparated item fault n count) fun i ts xs j _ =>
      Q i ts xs j ∧ xs ≠ [] ∧ count + xs.length ≤ maxArguments := by
  induction n with
  | zero =>
    refine fun count => (limited_sound h count).bind fun x => .pure ?_
    rintro j rest i us ⟨hcount,hx⟩
    exact ⟨by simpa using hone hx,by simp,hcount⟩
  | succ n ih =>
    intro count
    refine (limited_sound h count).bind fun x => .bind_take? (by simp) (.pure ?_) fun comma hcomma => ?_
    · rintro j rest - i us ⟨hcount,hx⟩
      exact ⟨by simpa using hone hx,by simp,hcount⟩
    · refine (ih (count + 1)).bind fun xs => .pure ?_
      rintro k rest j vs ⟨hxs,hne,hlimit⟩ i us ⟨-,hx⟩
      refine ⟨by simpa using hmore hx (by simpa using hcomma) hxs hne,by simp,?_⟩
      simp only [List.length_cons]
      omega

theorem listed_sound (h : Sound item fun i ts x j _ => P i ts x j) (hnil : ∀ {i}, Q i [] [] i)
    (hone : ∀ {i ts x j}, P i ts x j → Q i ts [x] j)
    (hmore : ∀ {i ts x j comma us xs k}, P i ts x j → comma.kind = .comma → Q j us xs k →
      xs ≠ [] → Q i (ts ++ comma :: us) (x :: xs) k) (n : Nat) :
    Sound (listed item fault n) fun i ts xs j _ => Q i ts xs j ∧ xs.length ≤ maxArguments := by
  refine .bind_peek fun t => ?_
  split
  next => exact .pure fun _ _ _ => ⟨hnil,by simp⟩
  next =>
    refine (commaSeparated_sound h hone hmore n 0).weaken ?_
    rintro i ts xs j rest ⟨hxs,-,hlimit⟩ -
    exact ⟨hxs,by omega⟩

end Lists

theorem call_sound (h : Sound inner (phrase .assignment)) (n : Nat) :
    Sound (call inner n) (phrase .call) := by
  have harguments : Sound (listed inner .tooManyArguments n) _ :=
    listed_sound h Arguments.none .one .more n
  refine (primary_sound h).bind fun e => (suffixes_sound harguments n e).weaken ?_
  exact fun _ _ _ _ _ hs i us he => hs i us (.operand (by simp) he)

theorem unary_sound (h : Sound operand (phrase .call)) :
    ∀ n, Sound (unary operand n) (phrase .unary) := by
  have hoperand := h.weaken (M := phrase .unary) fun i ts e j _ he => .operand (by simp) he
  intro n
  induction n with
  | zero => exact hoperand
  | succ n ih =>
    refine .bind_take? (by simp) (hoperand.weaken fun _ _ _ _ _ he _ => he) fun t ht => ?_
    exact ih.bind fun e => .pure fun j rest i us he => by simpa [phrase] using Expression.unary ht he

theorem chain_sound (h : Sound operand (phrase l.tighter)) (n : Nat) :
    ∀ left, Sound (chain l.node l.operators operand n left) fun j vs e k _ =>
      ∀ i us, Expression l i us left j → Expression l i (us ++ vs) e k := by
  induction n with
  | zero => exact fun left => .pure fun j rest i us he => by simpa using he
  | succ n ih =>
    have heof : Kind.eof ∉ l.operators := by cases l <;> simp [Precedence.operators]
    refine fun left => .bind_take? heof (.pure fun j rest _ i us he => by simpa using he) fun t ht => ?_
    refine h.bind fun right => (ih _).weaken fun k vs e k' rest hjoined j us hr i ts he => ?_
    simpa using hjoined i _ (.joined he ht hr)

theorem leftGrouped_sound (hl : l ≠ .primary) (h : Sound operand (phrase l.tighter)) (n : Nat) :
    Sound (leftGrouped l.node l.operators operand n) (phrase l) :=
  h.bind fun e => (chain_sound h n e).weaken fun _ _ _ _ _ hc i us he => hc i us (.operand hl he)

theorem ternary_sound (h : Sound inner (phrase .assignment)) (hoperand : Sound operand (phrase .equality))
    (n : Nat) : Sound (ternary inner operand n) (phrase .ternary) := by
  have hplain (i ts e j) (he : Expression .equality i ts e j) : Expression .ternary i ts e j :=
    .operand (by simp) he
  induction n with
  | zero => exact hoperand.weaken fun i ts e j _ he => hplain i ts e j he
  | succ n ih =>
    refine hoperand.bind fun condition => .bind_take? (by simp) (.pure ?_) fun question hq => ?_
    · intro j rest _ i us he
      simpa [phrase] using hplain i us condition j he
    · refine h.bind fun ifTrue => .bind_expect (by simp) fun colon hcolon => ih.bind fun ifFalse => .pure ?_
      intro l rest k vs hb j us ha i ts hc
      simpa [phrase] using Expression.ternary hc (by simpa using hq) ha hcolon hb

theorem assignment_sound (h : Sound operand (phrase .disjunction)) (n : Nat) :
    Sound (assignment operand n) (phrase .assignment) := by
  have hplain (i ts e j) (he : Expression .disjunction i ts e j) : Expression .assignment i ts e j :=
    .operand (by simp) he
  induction n with
  | zero => exact h.weaken fun i ts e j _ he => hplain i ts e j he
  | succ n ih =>
    refine h.bind fun target => .bind_take? (by simp) (.pure ?_) fun equals heq => ih.bind fun value => ?_
    · intro j rest _ i us he
      simpa [phrase] using hplain i us target j he
    · split
      next id name =>
        refine .bind_freshId fun k => .pure fun k' rest hk j vs hv i us ht => ?_
        obtain ⟨hname,rfl,-,rfl⟩ := ht.isTarget
        subst hk
        simpa [phrase] using Expression.assign hname (by simpa using heq) hv
      next object name =>
        refine .pure fun k rest j vs hv i us ht => ?_
        obtain ⟨ts,dot,ho,hdot,hname,rfl⟩ := ht.isTarget
        simpa [phrase] using Expression.set ho hdot hname (by simpa using heq) hv
      next => exact .bind_report (.pure (L := fun _ _ _ _ _ => True) fun _ _ => trivial)

theorem expression_sound (n : Nat) : Sound (expression n) (phrase .assignment) := by
  induction n with
  | zero => exact fail_sound _
  | succ n ih =>
    have hunary := unary_sound (call_sound ih n) n
    have hfactor := leftGrouped_sound (l := .factor) (by simp) hunary n
    have hterm := leftGrouped_sound (l := .term) (by simp) hfactor n
    have hcomparison := leftGrouped_sound (l := .comparison) (by simp) hterm n
    have hequality := leftGrouped_sound (l := .equality) (by simp) hcomparison n
    have hand := leftGrouped_sound (l := .conjunction) (by simp) (ternary_sound ih hequality n) n
    exact assignment_sound (leftGrouped_sound (l := .disjunction) (by simp) hand n) n

end Parser
end Lox

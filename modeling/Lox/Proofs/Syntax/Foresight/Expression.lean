import Lox.Proofs.Syntax.Foresight

/-! Expressions and lists stop at the first token that cannot come. -/
namespace Lox

namespace Relaxed

/-! The kinds of tokens that go on with an expression, for each level, from the tightest to the loosest. -/

def callJoins : List Kind := [.leftParen,.dot]

def factorJoins : List Kind := [.slash,.star] ++ callJoins

def termJoins : List Kind := [.minus,.plus] ++ factorJoins

def comparisonJoins : List Kind := [.greater,.greaterEqual,.less,.lessEqual] ++ termJoins

def equalityJoins : List Kind := [.bangEqual,.equalEqual] ++ comparisonJoins

def ternaryJoins : List Kind := [.question] ++ equalityJoins

def andJoins : List Kind := [.kwAnd] ++ ternaryJoins

def orJoins : List Kind := [.kwOr] ++ andJoins

def expressionJoins : List Kind := [.equal] ++ orJoins

theorem cons_mem_primary {K : Future} {t : Token} {z : List Token} :
    t :: z ∈ (Pattern.rule .primary).before K ↔
      (((((∃ x, t.kind = .number x) ∧ z ∈ K ∨ (∃ text, t.kind = .string text) ∧ z ∈ K) ∨
        t.kind ∈ [.kwTrue,.kwFalse,.kwNil,.kwThis,.identifier] ∧ z ∈ K) ∨
        t.kind = .leftParen ∧ z ∈ (Pattern.rule .expression).before ((Pattern.token .rightParen).before K)) ∨
        t.kind = .kwSuper ∧ z ∈ (Pattern.token .dot).before ((Pattern.token .identifier).before K)) := by
  rw [Pattern.rule_before]
  simp only [rules,Pattern.mem_either,Pattern.both_before,Pattern.cons_mem_number,Pattern.cons_mem_string,
    Pattern.cons_mem_oneOf,Pattern.cons_mem_token]

/-- What an expression begins with. -/
theorem expression_begins {K : Future} {t : Token} {z : List Token} (h : t :: z ∈ (Pattern.rule .expression).before K) :
    Grammar.startsExpression t.kind = true := by
  -- Down to the level of signs, the first operand of each level comes first.
  iterate 10
    rw [Pattern.rule_before] at h
    simp only [rules,Pattern.operations,Pattern.both_before] at h
  rw [Pattern.mem_either,Pattern.both_before,Pattern.cons_mem_oneOf] at h
  rcases h with ⟨hsign,-⟩ | h
  · exact Grammar.startsExpression_of_sign hsign
  · refine Grammar.startsExpression_of_startsPrimary ?_
    rw [Pattern.rule_before] at h
    simp only [rules,Pattern.both_before,cons_mem_primary,List.mem_cons,List.not_mem_nil,or_false] at h
    rcases h with (((⟨⟨x,ht⟩,-⟩ | ⟨⟨text,ht⟩,-⟩) | ⟨ht,-⟩) | ⟨ht,-⟩) | ⟨ht,-⟩
    · rw [ht]; rfl
    · rw [ht]; rfl
    · rcases ht with ht | ht | ht | ht | ht <;> rw [ht] <;> rfl
    · rw [ht]; rfl
    · rw [ht]; rfl

end Relaxed

namespace Parser

open Relaxed Pattern

variable {α : Type} {F G K N : Future} {k n : Nat} {p : Parser α} {t : Token} {ts : List Token}

/-- The next token is looked at. -/
theorem Foreseen.bind_peek {β : Type} {f : Token → Parser β} {r : Reader} (hr : r.rest = t :: ts)
    (h : Foreseen F K (t :: ts) (f t r)) : Foreseen F K (t :: ts) ((peek >>= f) r) := by
  change Foreseen F K (t :: ts) (f r.next r)
  rwa [show r.next = t by simp [Reader.next,hr]]

/-! ### Lists -/

/-- Something optional is left out where the token comes that follows it. -/
theorem unless_foresees {P : Pattern} {kind : Kind} (h : Foresees k (P.before K) K p)
    (hP : ∀ t z, t :: z ∈ P.before K → t.kind ≠ kind) (hK : K.BeginsWith [kind]) (a : α) :
    Foresees k ((optional P).before K) K (peek >>= fun t => if t.kind = kind then pure a else p) := by
  refine ⟨Keeps.peek.bind fun t => .ite (.pure a) h.keeps,fun r hended hk hclean => ?_⟩
  obtain ⟨t,ts,hts⟩ := hended.exists_cons
  rw [hts]
  refine .bind_peek hts ?_
  by_cases ht : t.kind = kind
  · rw [if_pos ht]
    have hnone : Foresees k K K (pure a : Parser α) := .pure a
    have hlater := hnone.sees hended hk hclean
    rw [hts] at hlater
    refine hlater.narrow (fun z hz => mem_optional.mpr (.inr hz)) fun z hz => ?_
    exact (mem_optional.mp hz).resolve_left fun hz => hP t z hz ht
  · rw [if_neg ht]
    have hlater := h.sees hended hk hclean
    rw [hts] at hlater
    refine hlater.narrow (fun z hz => mem_optional.mpr (.inl hz)) fun z hz => ?_
    exact (mem_optional.mp hz).resolve_right fun hz => ht (by simpa using hK t z hz)

theorem limited_foresees {fault : SyntaxFault} (hfault : fault.isFatal = false) (h : Foresees k F K p) (count : Nat) :
    Foresees k F K (limited p fault count) := by
  unfold limited
  split
  · exact Foresees.peek.bind fun t => (Foresees.report hfault t).bind fun _ => h
  · exact h

theorem commaSeparated_foresees {P : Pattern} {avoided : List Kind} {fault : SyntaxFault}
    (hfault : fault.isFatal = false)
    (h : ∀ K : Future, K.Avoids avoided → Foresees k (P.before K) K p) (hcomma : Kind.comma ∉ avoided)
    (hK : K.Avoids (.comma :: avoided)) (hn : k ≤ n) (count : Nat) :
    Foresees k ((list P).before K) K (commaSeparated p fault n count) := by
  have hmore : ((many (token .comma ++ P)).before K).Avoids avoided := by
    refine .many ?_ (hK.mono (List.subset_cons_self _ _))
    rw [both_before]
    exact .token hcomma
  rw [list,both_before]
  induction n generalizing k count with
  | zero =>
    obtain rfl := Nat.le_zero.mp hn
    exact .zero ((limited_foresees hfault (h _ hmore) count).keeps.bind fun x => .pure _)
  | succ n ih =>
    refine (limited_foresees hfault (h _ hmore) count).bind fun x => ?_
    refine .bind_take? (by simp) (.pure _) (fun z hz => mem_many.mpr (.inr hz)) (fun t z ht hz => ?_) fun t ht => ?_
    · simp only [mem_many,both_before,cons_mem_token] at hz
      exact hz.resolve_left fun hcomma => by simp [hcomma.1] at ht
    · have hkind : t.kind = .comma := by simpa using ht
      refine ⟨P.before ((many (token .comma ++ P)).before K),fun z => ?_,?_⟩
      · have havoid : t :: z ∉ K := fun hz => hK t z hz (by simp [hkind])
        rw [mem_many]
        simp [hkind,havoid]
      · have hless (K : Future) (hK : K.Avoids avoided) := (h K hK).mono (Nat.sub_le k 1)
        exact (ih hless (Nat.sub_le_of_le_add hn) _).bind fun others => .pure _

theorem listed_foresees {P : Pattern} {name : Phrase} {avoided : List Kind} {fault : SyntaxFault}
    (hname : rules name = list P) (hfault : fault.isFatal = false)
    (h : ∀ K : Future, K.Avoids avoided → Foresees k (P.before K) K p) (hcomma : Kind.comma ∉ avoided)
    (hclosing : Kind.rightParen ∉ avoided)
    (hP : ∀ (K : Future) t z, t :: z ∈ P.before K → t.kind ≠ .rightParen) (hK : K.BeginsWith [.rightParen])
    (hn : k ≤ n) : Foresees k ((optional (rule name)).before K) K (listed p fault n) := by
  have hnext : K.Avoids (.comma :: avoided) := fun t z hz => by
    have ht : t.kind = .rightParen := by simpa using hK t z hz
    simpa [ht] using hclosing
  refine unless_foresees (P := rule name) ?_ (fun t z hz => ?_) hK []
  · rw [rule_before,hname]
    exact commaSeparated_foresees hfault h hcomma hnext hn 0
  · rw [rule_before,hname,list,both_before] at hz
    exact hP _ t z hz

/-! ### Expressions -/

section Expressions

variable {inner operand : Parser Expr}

/-- The rule for an expression, on at most `k` tokens. -/
def ForeseesExpression (k : Nat) (inner : Parser Expr) : Prop :=
  ∀ K : Future, K.Avoids expressionJoins → Foresees k ((rule .expression).before K) K inner

theorem Foreseen.bind_skip {β : Type} {f : Unit → Parser β} {r : Reader} (hr : r.rest = t :: ts) (ht : t.kind ≠ .eof)
    (hended : Ended r.rest) (hk : r.rest.length ≤ k) (hclean : Clean r.errors) (hG : ∀ z, z ∈ G ↔ t :: z ∈ F)
    (h : Foresees (k - 1) G K (f ())) : Foreseen F K (t :: ts) ((skip >>= f) r) := by
  have hlength : ts.length ≤ k - 1 := by simpa [hr] using Nat.sub_le_sub_right hk 1
  obtain ⟨_,allocated,errors,events⟩ := r
  cases hr
  have hskip := skip_cons t ts allocated errors events
  rw [show t.isEof = false by simpa [Token.isEof] using ht,if_neg Bool.false_ne_true] at hskip
  have hlater := h.sees (r := ⟨ts,allocated,errors,events⟩) (hended.tail ht) hlength hclean
  simp only [Bind.bind,EStateM.bind,hskip]
  exact hlater.step hG

theorem primary_foresees (h : ForeseesExpression (k - 1) inner) :
    Foresees k ((rule .primary).before K) K (primary inner) := by
  have hsuper (t : Token) : Foresees (k - 1) ((token .dot).before ((token .identifier).before K)) K (do
      let _ ← expect .dot .superDot
      let method ← expect .identifier .superMethod
      return Expr.super (← freshId) t method) :=
    (Foresees.expect (by simp) _).bind fun _ => (Foresees.expect (by simp) _).bind fun _ =>
      Foresees.freshId.bind fun _ => .pure _
  have hgroup : Foresees (k - 1) ((rule .expression).before ((token .rightParen).before K)) K (do
      let e ← inner
      let _ ← expect .rightParen .groupEnd
      return Expr.grouping e) :=
    (h _ (.token (by decide))).bind fun _ => (Foresees.expect (by simp) _).bind fun _ => .pure _
  refine ⟨Keeps.peek.bind fun t => ?_,fun r hended hk hclean => ?_⟩
  · cases t.kind with
    | kwFalse | kwTrue | kwNil | number | string => exact Keeps.skip.bind fun _ => .pure _
    | identifier | kwThis => exact Keeps.freshId.bind fun _ => Keeps.skip.bind fun _ => .pure _
    | kwSuper => exact Keeps.skip.bind fun _ => (hsuper t).keeps
    | leftParen => exact Keeps.skip.bind fun _ => hgroup.keeps
    | _ => exact .fail _
  · obtain ⟨t,ts,hts⟩ := hended.exists_cons
    rw [hts]
    refine .bind_peek hts ?_
    cases ht : t.kind with
    | kwFalse | kwTrue | kwNil | number | string =>
      exact .bind_skip hts (by simp [ht]) hended hk hclean (fun z => by simp [cons_mem_primary,ht]) (.pure _)
    | identifier | kwThis =>
      change Foreseen _ K (t :: ts) ((skip >>= fun _ => _) { r with allocated := r.allocated + 1 })
      exact .bind_skip hts (by simp [ht]) hended hk hclean (fun z => by simp [cons_mem_primary,ht]) (.pure _)
    | kwSuper =>
      exact .bind_skip hts (by simp [ht]) hended hk hclean (fun z => by simp [cons_mem_primary,ht]) (hsuper t)
    | leftParen =>
      exact .bind_skip hts (by simp [ht]) hended hk hclean (fun z => by simp [cons_mem_primary,ht]) hgroup
    | _ => exact .fail rfl hts hclean fun z => by simp [cons_mem_primary,ht]

/-- Arguments and properties. -/
theorem suffixes_foresees {arguments : Parser (List Expr)} (hK : K.Avoids callJoins)
    (h : ∀ K : Future, K.BeginsWith [.rightParen] →
      Foresees (k - 1) ((optional (rule .arguments)).before K) K arguments) (hn : k ≤ n) (e : Expr) :
    Foresees k ((many (token .leftParen ++ optional (rule .arguments) ++ token .rightParen |||
      token .dot ++ token .identifier)).before K) K (suffixes arguments n e) := by
  induction n generalizing k e with
  | zero =>
    obtain rfl := Nat.le_zero.mp hn
    exact .zero (.pure e)
  | succ n ih =>
    have hless (K : Future) (hK : K.BeginsWith [.rightParen]) := (h K hK).mono (Nat.sub_le (k - 1) 1)
    have hlater := ih hless (Nat.sub_le_of_le_add hn)
    refine .bind_take? (by simp) (.pure e) (fun z hz => mem_many.mpr (.inr hz)) (fun t z ht hz => ?_) fun t ht => ?_
    · simp only [mem_many,mem_either,both_before,cons_mem_token] at hz
      rcases hz with (⟨hopening,-⟩ | ⟨hdot,-⟩) | hz
      · simp [hopening] at ht
      · simp [hdot] at ht
      · exact hz
    · have havoid {z : List Token} : t :: z ∉ K := fun hz => hK t z hz ht
      dsimp only
      split
      next hopening =>
        refine ⟨_,fun z => ?_,(h _ ?_).bind fun args => (Foresees.expect (by simp) _).bind fun paren => hlater _⟩
        · rw [mem_many]
          simp [hopening,havoid]
        · exact fun t z hz => by simpa using (cons_mem_token.mp hz).1
      next hopening =>
        have hdot : t.kind = .dot := by simpa [hopening] using ht
        refine ⟨_,fun z => ?_,(Foresees.expect (by simp) _).bind fun name => hlater _⟩
        rw [mem_many]
        simp [hdot,havoid]

theorem call_foresees (h : ForeseesExpression (k - 1) inner) (hK : K.Avoids callJoins) (hn : k ≤ n) :
    Foresees k ((rule .call).before K) K (call inner n) := by
  have harguments (K : Future) (hK : K.BeginsWith [.rightParen]) :
      Foresees (k - 1) ((optional (rule .arguments)).before K) K (listed inner .tooManyArguments n) := by
    refine listed_foresees rfl rfl h (by decide) (by decide) (fun K t z hz ht => ?_) hK (by omega)
    have hbegins := expression_begins hz
    rw [ht] at hbegins
    cases hbegins
  rw [rule_before,rules,both_before]
  exact (primary_foresees h).bind fun e => suffixes_foresees hK harguments hn e

/-- Signs in front of an operand. -/
theorem unary_foresees (h : Foresees k ((rule .call).before K) K operand) (hn : k ≤ n) :
    Foresees k ((rule .unary).before K) K (unary operand n) := by
  induction n generalizing k with
  | zero =>
    obtain rfl := Nat.le_zero.mp hn
    exact .zero h.keeps
  | succ n ih =>
    rw [rule_before]
    refine .bind_take? (by simp) h (fun z hz => mem_either.mpr (.inr hz)) (fun t z ht hz => ?_) fun t ht => ?_
    · simp only [rules,mem_either,both_before,cons_mem_oneOf] at hz
      exact hz.resolve_left fun hsign => ht hsign.1
    · refine ⟨_,fun z => ?_,(ih (h.mono (Nat.sub_le k 1)) (Nat.sub_le_of_le_add hn)).bind fun right => .pure _⟩
      have hcall : t :: z ∉ (rule .call).before K := fun hz => by
        rw [rule_before] at hz
        simp only [rules,both_before,cons_mem_primary] at hz
        simp only [List.mem_cons,List.not_mem_nil,or_false] at ht
        rcases ht with ht | ht <;> simp [ht] at hz
      simp [rules,hcall,ht]

theorem leftGrouped_foresees {name : Phrase} (level : Phrase) {operator : Kind} {others joins : List Kind}
    (node : Expr → Token → Expr → Expr) (hlevel : rules level = operations name operator others)
    (heof : Kind.eof ∉ operator :: others) (hseparate : ∀ kind ∈ operator :: others, kind ∉ joins)
    (h : ∀ K : Future, K.Avoids joins → Foresees k ((rule name).before K) K operand)
    (hK : K.Avoids (operator :: others ++ joins)) (hn : k ≤ n) :
    Foresees k ((rule level).before K) K (leftGrouped node (operator :: others) operand n) := by
  have hmore : ((many (oneOf operator others ++ rule name)).before K).Avoids joins := by
    refine .many ?_ (hK.mono (List.subset_append_right _ _))
    rw [both_before]
    exact .oneOf hseparate
  rw [rule_before,hlevel,operations,both_before]
  refine (h _ hmore).bind fun left => ?_
  induction n generalizing k left with
  | zero =>
    obtain rfl := Nat.le_zero.mp hn
    exact .zero (.pure left)
  | succ n ih =>
    refine .bind_take? heof (.pure left) (fun z hz => mem_many.mpr (.inr hz)) (fun t z ht hz => ?_) fun t ht => ?_
    · simp only [mem_many,both_before,cons_mem_oneOf] at hz
      exact hz.resolve_left fun hoperator => ht hoperator.1
    · have hless (K : Future) (hK : K.Avoids joins) := (h K hK).mono (Nat.sub_le k 1)
      refine ⟨_,fun z => ?_,(hless _ hmore).bind fun right => ih hless (Nat.sub_le_of_le_add hn) _⟩
      have havoid : t :: z ∉ K := fun hz => hK t z hz (List.mem_append_left _ ht)
      rw [mem_many]
      simp only [both_before,cons_mem_oneOf,ht,havoid,true_and,or_false]

theorem ternary_foresees (h : ForeseesExpression (k - 1) inner)
    (hoperand : ∀ K : Future, K.Avoids equalityJoins → Foresees k ((rule .equality).before K) K operand)
    (hK : K.Avoids ternaryJoins) (hn : k ≤ n) : Foresees k ((rule .ternary).before K) K (ternary inner operand n) := by
  induction n generalizing k with
  | zero =>
    obtain rfl := Nat.le_zero.mp hn
    exact .zero (hoperand K (hK.mono (List.subset_append_right _ _))).keeps
  | succ n ih =>
    have hrest : ((optional (token .question ++ rule .expression ++ token .colon ++ rule .ternary)).before
        K).Avoids equalityJoins := by
      refine .optional ?_ (hK.mono (List.subset_append_right _ _))
      simp only [both_before]
      exact .token (by decide)
    rw [rule_before,rules,both_before]
    refine (hoperand _ hrest).bind fun condition => ?_
    refine .bind_take? (by simp) (.pure _) (fun z hz => mem_optional.mpr (.inr hz)) (fun t z ht hz => ?_) fun t ht => ?_
    · simp only [mem_optional,both_before,cons_mem_token] at hz
      exact hz.resolve_left fun hquestion => ht (by simp [hquestion.1])
    · have hkind : t.kind = .question := by simpa using ht
      have hless (K : Future) (hK : K.Avoids equalityJoins) := (hoperand K hK).mono (Nat.sub_le k 1)
      have hinner : ForeseesExpression (k - 1 - 1) inner := fun K hK => (h K hK).mono (Nat.sub_le _ 1)
      refine ⟨_,fun z => ?_,(h _ (.token (by decide))).bind fun ifTrue => (Foresees.expect (by simp) _).bind fun _ =>
        (ih hinner hless (Nat.sub_le_of_le_add hn)).bind fun ifFalse => .pure _⟩
      have havoid : t :: z ∉ K := fun hz => hK t z hz (List.mem_append_left _ ht)
      simp [hkind,havoid]

theorem assignment_foresees
    (h : ∀ K : Future, K.Avoids orJoins → Foresees k ((rule .logicOr).before K) K operand)
    (hK : K.Avoids expressionJoins) (hn : k ≤ n) : Foresees k ((rule .assignment).before K) K (assignment operand n) := by
  induction n generalizing k with
  | zero =>
    obtain rfl := Nat.le_zero.mp hn
    exact .zero (h K (hK.mono (List.subset_append_right _ _))).keeps
  | succ n ih =>
    have hrest : ((optional (token .equal ++ rule .assignment)).before K).Avoids orJoins := by
      refine .optional ?_ (hK.mono (List.subset_append_right _ _))
      rw [both_before]
      exact .token (by decide)
    rw [rule_before,rules,both_before]
    refine (h _ hrest).bind fun target => ?_
    refine .bind_take? (by simp) (.pure _) (fun z hz => mem_optional.mpr (.inr hz)) (fun t z ht hz => ?_) fun t ht => ?_
    · simp only [mem_optional,both_before,cons_mem_token] at hz
      exact hz.resolve_left fun hequal => ht (by simp [hequal.1])
    · have hkind : t.kind = .equal := by simpa using ht
      have hless (K : Future) (hK : K.Avoids orJoins) := (h K hK).mono (Nat.sub_le k 1)
      refine ⟨_,fun z => ?_,(ih hless (Nat.sub_le_of_le_add hn)).bind fun value => ?_⟩
      · have havoid : t :: z ∉ K := fun hz => hK t z hz (List.mem_append_left _ ht)
        simp [hkind,havoid]
      · -- Whatever stands on the left side, the parse goes on here.
        cases target with
        | «variable» => exact Foresees.freshId.bind fun _ => .pure _
        | get => exact .pure _
        | _ => exact (Foresees.report rfl _).bind fun _ => .pure _

theorem expression_foresees (hn : k ≤ n - 1) : ForeseesExpression k (expression n) := by
  induction n generalizing k with
  | zero =>
    obtain rfl := Nat.le_zero.mp hn
    exact fun K _ => .zero (.fail _)
  | succ n ih =>
    have hn : k ≤ n := hn
    have hinner : ForeseesExpression (k - 1) (expression n) := ih (Nat.sub_le_sub_right hn 1)
    intro K hK
    have hcall (K : Future) (hK : K.Avoids callJoins) := call_foresees (K := K) hinner hK hn
    have hunary (K : Future) (hK : K.Avoids callJoins) := unary_foresees (hcall K hK) hn
    have hfactor (K : Future) (hK : K.Avoids factorJoins) :=
      leftGrouped_foresees .factor .binary rfl (by decide) (by decide) hunary hK hn
    have hterm (K : Future) (hK : K.Avoids termJoins) :=
      leftGrouped_foresees .term .binary rfl (by decide) (by decide) hfactor hK hn
    have hcomparison (K : Future) (hK : K.Avoids comparisonJoins) :=
      leftGrouped_foresees .comparison .binary rfl (by decide) (by decide) hterm hK hn
    have hequality (K : Future) (hK : K.Avoids equalityJoins) :=
      leftGrouped_foresees .equality .binary rfl (by decide) (by decide) hcomparison hK hn
    have hternary (K : Future) (hK : K.Avoids ternaryJoins) := ternary_foresees hinner hequality hK hn
    have hand (K : Future) (hK : K.Avoids andJoins) :=
      leftGrouped_foresees .logicAnd .logical rfl (by decide) (by decide) hternary hK hn
    have hor (K : Future) (hK : K.Avoids orJoins) :=
      leftGrouped_foresees .logicOr .logical rfl (by decide) (by decide) hand hK hn
    rw [rule_before]
    exact assignment_foresees hor hK hn

end Expressions
end Parser
end Lox

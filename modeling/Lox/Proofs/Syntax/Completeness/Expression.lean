import Lox.Proofs.Syntax.Precedence

/-! The parser of expressions reads every phrase of the grammar without limits. A level with a loop is described by what
it does behind a phrase, since the loop is greedy and stops only at the last operand. -/
namespace Lox
namespace Parser

open Unlimited
open Grammar hiding Expression Arguments

variable {n m : Nat} {i j k : Tally} {s t u : List Token} {l : Precedence}

/-! ### Loops and levels -/

theorem chain_nil (node : Expr → Token → Expr → Expr) (operand : Parser Expr) (n : Nat) (e : Expr) :
    chain node [] operand n e = pure e := by
  cases n with
  | zero => rfl
  | succ n =>
    funext r
    obtain ⟨rest,allocated,errors,events⟩ := r
    cases rest <;> rfl

theorem chain_stops {node : Expr → Token → Expr → Expr} {operators : List Kind}
    {operand : Parser Expr} {e : Expr} (h : upcoming s ∉ operators) (n : Nat) :
    Consumes (chain node operators operand n e) i s e i s := by
  cases n with
  | zero => exact .pure e
  | succ n => exact (take?_reads_none h).step (.pure e)

theorem suffixes_stops {arguments : Parser (List Expr)} {e : Expr}
    (h : upcoming s ∉ [Kind.leftParen,Kind.dot]) (n : Nat) :
    Consumes (suffixes arguments n e) i s e i s := by
  cases n with
  | zero => exact .pure e
  | succ n => exact (take?_reads_none h).step (.pure e)

theorem resume_stops (h : upcoming s ∉ l.continuations) (n used : Nat) (e : Expr) :
    Consumes (resume n l used e) i s e i s := by
  unfold resume
  split
  next hl => subst hl; exact suffixes_stops h _
  next => exact chain_stops (fun hmem => h (l.operators_subset hmem)) _

theorem resume_eq_pure (h : l.isLoop = false) (n used : Nat) (e : Expr) :
    resume n l used e = pure e := by
  cases l <;> first | exact absurd h (by decide) | exact chain_nil _ _ _ e

/-- What is read in front of the rest of a loop, at a level that has none. -/
theorem Consumes.then_pure {p : Parser Expr} {e a : Expr} (h : Consumes p i s e j t)
    (hr : Consumes (Pure.pure e : Parser Expr) j t a k u) : Consumes p i s a k u := by
  intro events
  obtain ⟨events₁,h₁⟩ := h events
  obtain ⟨events₂,h₂⟩ := hr events₁
  exact ⟨events₂,h₁.trans h₂⟩

/-- An operand of a level, and then what the level does behind it. -/
theorem atLevel_operand {e a : Expr} (hl : l ≠ .primary)
    (h : Consumes (atLevel n n l.tighter) i s e j t)
    (hs : l = .unary → upcoming s ∉ [Kind.bang,Kind.minus])
    (ht : upcoming t ∉ l.innerContinuations) (hr : Consumes (resume n l 0 e) j t a k u) :
    Consumes (atLevel n m l) i s a k u := by
  by_cases hloop : l.isLoop
  · by_cases hc : l = .call
    · subst hc
      exact h.bind hr
    · have hop : l.operators ≠ [] := by cases l <;> simp_all [Precedence.operators,Precedence.isLoop]
      rw [atLevel_eq_leftGrouped hop]
      simp only [resume,if_neg hc] at hr
      exact h.bind hr
  · have hloop : l.isLoop = false := by simpa using hloop
    have hown : upcoming t ∉ l.ownContinuations := fun hmem => ht (Precedence.own_subset_inner hloop hmem)
    rw [resume_eq_pure hloop] at hr
    refine Consumes.then_pure ?_ hr
    cases l with
    | assignment =>
      cases m with
      | zero => exact h
      | succ m => exact h.bind ((take?_reads_none hown).step (.pure e))
    | ternary =>
      cases m with
      | zero => exact h
      | succ m => exact h.bind ((take?_reads_none hown).step (.pure e))
    | unary =>
      cases m with
      | zero => exact h
      | succ m => exact (take?_reads_none (hs rfl)).step h
    | primary => exact absurd rfl hl
    | _ => exact absurd hloop (by decide)

/-- A phrase that a level reads as its operand, when nothing behind it belongs to the level. -/
theorem atLevel_of_tighter {e : Expr} (hl : l ≠ .primary)
    (h : Consumes (atLevel n n l.tighter) i s e j t)
    (hs : l = .unary → upcoming s ∉ [Kind.bang,Kind.minus]) (ht : upcoming t ∉ l.continuations) :
    Consumes (atLevel n m l) i s e j t :=
  atLevel_operand hl h hs (fun hmem => ht (l.inner_subset hmem)) (resume_stops ht n 0 e)

/-- A call or a property read as the left side of an assignment. -/
theorem disjunction_of_call {e : Expr} (h : Consumes (atLevel n n .call) i s e j t)
    (hs : upcoming s ∉ [Kind.bang,Kind.minus]) (ht : upcoming t ∉ Precedence.disjunction.continuations) :
    Consumes (atLevel n n .disjunction) i s e j t := by
  have hd (l : Precedence) (hl : l.continuations ⊆ Precedence.disjunction.continuations) :
      upcoming t ∉ l.continuations := fun hmem => ht (hl hmem)
  have h₁ := atLevel_of_tighter (l := .unary) (m := n) (by decide) h (fun _ => hs) (hd _ (by decide))
  have h₂ := atLevel_of_tighter (l := .factor) (m := n) (by decide) h₁ (by simp) (hd _ (by decide))
  have h₃ := atLevel_of_tighter (l := .term) (m := n) (by decide) h₂ (by simp) (hd _ (by decide))
  have h₄ := atLevel_of_tighter (l := .comparison) (m := n) (by decide) h₃ (by simp) (hd _ (by decide))
  have h₅ := atLevel_of_tighter (l := .equality) (m := n) (by decide) h₄ (by simp) (hd _ (by decide))
  have h₆ := atLevel_of_tighter (l := .ternary) (m := n) (by decide) h₅ (by simp) (hd _ (by decide))
  have h₇ := atLevel_of_tighter (l := .conjunction) (m := n) (by decide) h₆ (by simp) (hd _ (by decide))
  exact atLevel_of_tighter (by decide) h₇ (by simp) ht

/-! ### Phrases -/

/-- The parser of a level reads a phrase of it: after some rounds of the level's loop the phrase is
read, and the loop goes on behind it. -/
def ConsumesPhrase (l : Precedence) (i : Tally) (ts : List Token) (e : Expr) (j : Tally) : Prop :=
  ∀ n m, ts.length ≤ n + 1 → ts.length ≤ m + 1 → ∃ used, used + 1 ≤ ts.length ∧
    ∀ {t a k u}, upcoming t ∉ l.innerContinuations → Consumes (resume n l used e) j t a k u →
      Consumes (atLevel n m l) i (ts ++ t) a k u

namespace ConsumesPhrase

variable {ts us vs : List Token} {e : Expr}

theorem final (h : ConsumesPhrase l i ts e j) (hn : ts.length ≤ n + 1) (hm : ts.length ≤ m + 1)
    (ht : upcoming t ∉ l.continuations) : Consumes (atLevel n m l) i (ts ++ t) e j t := by
  obtain ⟨used,-,hr⟩ := h n m hn hm
  exact hr (fun hmem => ht (l.inner_subset hmem)) (resume_stops ht n used e)

theorem nested (h : ConsumesPhrase .assignment i ts e j) (hts : ts ≠ []) (hn : ts.length ≤ n)
    (ht : upcoming t ∉ Precedence.assignment.continuations) :
    Consumes (expression n) i (ts ++ t) e j t := by
  cases n with
  | zero => exact absurd (List.length_eq_zero_iff.mp (Nat.le_zero.mp hn)) hts
  | succ n => exact h.final hn hn ht

/-- At a level without a loop it is enough to read the phrase. -/
theorem of_consumes (hl : l.isLoop = false) (hts : ts ≠ [])
    (h : ∀ n m, ts.length ≤ n + 1 → ts.length ≤ m + 1 → ∀ {t}, upcoming t ∉ l.innerContinuations →
      Consumes (atLevel n m l) i (ts ++ t) e j t) : ConsumesPhrase l i ts e j := by
  intro n m hn hm
  refine ⟨0,by simpa [Nat.one_le_iff_ne_zero] using hts,fun ht hr => ?_⟩
  rw [resume_eq_pure hl] at hr
  exact (h n m hn hm ht).then_pure hr

theorem operand (hl : l ≠ .primary) (h : ConsumesPhrase l.tighter i ts e j) (hts : ts ≠ [])
    (hs : l = .unary → ∀ t, upcoming (ts ++ t) ∉ [Kind.bang,Kind.minus]) : ConsumesPhrase l i ts e j := by
  intro n m hn hm
  refine ⟨0,by simpa [Nat.one_le_iff_ne_zero] using hts,fun ht hr => ?_⟩
  have ht' := fun hmem => ht (Precedence.tighter_subset_inner l hmem)
  exact atLevel_operand hl (h.final hn hn ht') (fun hu => hs hu _) ht hr

theorem joined {left right : Expr} {operator : Token} (h : ConsumesPhrase l i ts left j)
    (hop : operator.kind ∈ l.operators) (hr : ConsumesPhrase l.tighter j us right k) :
    ConsumesPhrase l i (ts ++ operator :: us) (l.node left operator right) k := by
  intro n m hn hm
  simp only [List.length_append,List.length_cons] at hn hm
  obtain ⟨used,hused,hleft⟩ := h n m (by omega) (by omega)
  refine ⟨used + 1,by simp only [List.length_append,List.length_cons]; omega,fun ht hres => ?_⟩
  have hc := Precedence.ne_call_of_mem_operators hop
  rw [List.append_assoc]
  refine hleft (Precedence.operators_not_tighter hop) ?_
  have hfuel : n - used = n - (used + 1) + 1 := by omega
  simp only [resume,if_neg hc] at hres ⊢
  rw [hfuel]
  refine (take?_reads hop).step ((hr.final (by omega) (by omega) ?_).bind hres)
  exact fun hmem => ht (Precedence.tighter_subset_inner l hmem)

theorem assign {name equals : Token} {value : Expr} (hname : name.kind = .identifier)
    (heq : equals.kind = .equal) (h : ConsumesPhrase .assignment i.allocate ts value j) :
    ConsumesPhrase .assignment i (name :: equals :: ts) (.assign (.numbered j.allocated) name value) j.allocate := by
  refine of_consumes rfl (by simp) fun n m hn hm t ht => ?_
  simp only [List.length_cons] at hn hm
  obtain ⟨m,rfl⟩ : ∃ m', m = m' + 1 := ⟨m - 1,by omega⟩
  have hvariable : Consumes (atLevel n n .call) i (name :: equals :: (ts ++ t))
      (.variable (.numbered i.allocated) name) i.allocate (equals :: (ts ++ t)) := by
    refine Consumes.bind (peek_reads.step ?_) (suffixes_stops (by simp [heq]) n)
    simp only [List.headD_cons,hname]
    exact freshId_consumes.bind ((skip_reads (by simp [hname])).step (.pure _))
  have htarget := disjunction_of_call hvariable (by simp [hname]) (by rw [upcoming_cons,heq]; decide)
  refine htarget.bind ((take?_reads (by simp [heq])).step ?_)
  exact (h.final (by omega) (by omega) ht).bind (freshId_consumes.bind (.pure _))

theorem set {object value : Expr} {dot name equals : Token} (ho : ConsumesPhrase .call i ts object j)
    (hs : ∀ t, upcoming (ts ++ t) ∉ [Kind.bang,Kind.minus]) (hdot : dot.kind = .dot)
    (hname : name.kind = .identifier) (heq : equals.kind = .equal)
    (hv : ConsumesPhrase .assignment j us value k) :
    ConsumesPhrase .assignment i (ts ++ dot :: name :: equals :: us) (.set object name value) k := by
  refine of_consumes rfl (by simp) fun n m hn hm t ht => ?_
  simp only [List.length_append,List.length_cons] at hn hm
  obtain ⟨m,rfl⟩ : ∃ m', m = m' + 1 := ⟨m - 1,by omega⟩
  obtain ⟨used,hused,hobject⟩ := ho n n (by omega) (by omega)
  have hfuel : n - used = n - (used + 1) + 1 := by omega
  have hproperty : Consumes (atLevel n n .call) i (ts ++ dot :: name :: equals :: (us ++ t))
      (.get object name) j (equals :: (us ++ t)) := by
    refine hobject List.not_mem_nil ?_
    simp only [resume,if_true]
    rw [hfuel]
    refine (take?_reads (by simp [hdot])).step ?_
    simp only [hdot]
    exact (expect_reads hname _).step (suffixes_stops (by simp [heq]) _)
  have htarget := disjunction_of_call hproperty (hs _) (by rw [upcoming_cons,heq]; decide)
  simp only [List.append_assoc,List.cons_append]
  refine htarget.bind ((take?_reads (by simp [heq])).step ?_)
  exact (hv.final (by omega) (by omega) ht).bind (.pure _)

theorem ternary {condition ifTrue ifFalse : Expr} {question colon : Token} {l' : Tally}
    (hc : ConsumesPhrase .equality i ts condition j) (hq : question.kind = .question)
    (ha : ConsumesPhrase .assignment j us ifTrue k) (hus : us ≠ []) (hcolon : colon.kind = .colon)
    (hb : ConsumesPhrase .ternary k vs ifFalse l') (hvs : vs ≠ []) :
    ConsumesPhrase .ternary i (ts ++ question :: (us ++ colon :: vs)) (.ternary condition ifTrue ifFalse)
      l' := by
  refine of_consumes rfl (by simp) fun n m hn hm t ht => ?_
  simp only [List.length_append,List.length_cons] at hn hm
  have hvpos := List.length_pos_iff.mpr hvs
  obtain ⟨m,rfl⟩ : ∃ m', m = m' + 1 := ⟨m - 1,by omega⟩
  simp only [List.append_assoc,List.cons_append]
  have hcond := hc.final (n := n) (m := n) (by omega) (by omega)
    (t := question :: (us ++ colon :: (vs ++ t))) (by rw [upcoming_cons,hq]; decide)
  refine hcond.bind ((take?_reads (by simp [hq])).step ?_)
  refine (ha.nested hus (by omega) (by rw [upcoming_cons,hcolon]; decide)).bind ?_
  exact (expect_reads hcolon _).step ((hb.final (by omega) (by omega) ht).bind (.pure _))

theorem unary {right : Expr} {operator : Token} (hop : operator.kind ∈ [Kind.bang,Kind.minus])
    (h : ConsumesPhrase .unary i ts right j) (hts : ts ≠ []) :
    ConsumesPhrase .unary i (operator :: ts) (.unary operator right) j := by
  refine of_consumes rfl (by simp) fun n m hn hm t ht => ?_
  simp only [List.length_cons] at hn hm
  have hpos := List.length_pos_iff.mpr hts
  obtain ⟨m,rfl⟩ : ∃ m', m = m' + 1 := ⟨m - 1,by omega⟩
  exact (take?_reads hop).step ((h.final (by omega) (by omega) ht).bind (.pure _))

theorem call {callee : Expr} {arguments : List Expr} {opening paren : Token}
    (h : ConsumesPhrase .call i ts callee j) (hopen : opening.kind = .leftParen)
    (hargs : ∀ n t, us.length ≤ n → upcoming t = .rightParen →
      Consumes (listed (expression n) .tooManyArguments n) j (us ++ t) arguments k t)
    (hparen : paren.kind = .rightParen) :
    ConsumesPhrase .call i (ts ++ opening :: (us ++ [paren])) (.call callee paren arguments) k := by
  intro n m hn hm
  simp only [List.length_append,List.length_cons,List.length_nil] at hn hm
  obtain ⟨used,hused,hcallee⟩ := h n m (by omega) (by omega)
  refine ⟨used + 1,by simp only [List.length_append,List.length_cons]; omega,fun ht hres => ?_⟩
  simp only [List.append_assoc,List.cons_append,List.nil_append]
  refine hcallee List.not_mem_nil ?_
  have hfuel : n - used = n - (used + 1) + 1 := by omega
  simp only [resume,if_true] at hres ⊢
  rw [hfuel]
  refine (take?_reads (by simp [hopen])).step ?_
  simp only [hopen,if_true]
  exact (hargs n (paren :: _) (by omega) hparen).bind ((expect_reads hparen _).step hres)

theorem get {object : Expr} {dot name : Token} (h : ConsumesPhrase .call i ts object j)
    (hdot : dot.kind = .dot) (hname : name.kind = .identifier) :
    ConsumesPhrase .call i (ts ++ [dot,name]) (.get object name) j := by
  intro n m hn hm
  simp only [List.length_append,List.length_cons,List.length_nil] at hn hm
  obtain ⟨used,hused,hobject⟩ := h n m (by omega) (by omega)
  refine ⟨used + 1,by simp only [List.length_append,List.length_cons]; omega,fun ht hres => ?_⟩
  simp only [List.append_assoc,List.cons_append,List.nil_append]
  refine hobject List.not_mem_nil ?_
  have hfuel : n - used = n - (used + 1) + 1 := by omega
  simp only [resume,if_true] at hres ⊢
  rw [hfuel]
  refine (take?_reads (by simp [hdot])).step ?_
  simp only [hdot]
  exact (expect_reads hname _).step hres

theorem of_primary {first : Token} {others : List Token}
    (h : ∀ n t, (first :: others).length ≤ n + 1 →
      Consumes (primary (expression n)) i (first :: (others ++ t)) e j t) :
    ConsumesPhrase .primary i (first :: others) e j :=
  of_consumes rfl (by simp) fun n _ hn _ t _ => h n t hn

theorem literal {first : Token} {value : Literal} (h : literal? first.kind = some value) :
    ConsumesPhrase .primary i [first] (.literal value) i := by
  refine of_primary fun n t _ => peek_reads.step ?_
  obtain ⟨kind,lexeme,line⟩ := first
  cases kind <;> simp only [literal?,Option.some.injEq,reduceCtorEq] at h <;> subst h <;>
    exact (skip_reads (by simp)).step (.pure _)

theorem identifier {name : Token} (h : name.kind = .identifier) :
    ConsumesPhrase .primary i [name] (.variable (.numbered i.allocated) name) i.allocate := by
  refine of_primary fun n t _ => peek_reads.step ?_
  simp only [List.headD_cons,h]
  exact freshId_consumes.bind ((skip_reads (by simp [h])).step (.pure _))

theorem this {keyword : Token} (h : keyword.kind = .kwThis) :
    ConsumesPhrase .primary i [keyword] (.this (.numbered i.allocated) keyword) i.allocate := by
  refine of_primary fun n t _ => peek_reads.step ?_
  simp only [List.headD_cons,h]
  exact freshId_consumes.bind ((skip_reads (by simp [h])).step (.pure _))

theorem super {keyword dot method : Token} (h : keyword.kind = .kwSuper) (hdot : dot.kind = .dot)
    (hmethod : method.kind = .identifier) :
    ConsumesPhrase .primary i [keyword,dot,method] (.super (.numbered i.allocated) keyword method) i.allocate := by
  refine of_primary fun n t _ => peek_reads.step ?_
  simp only [List.headD_cons,h]
  refine (skip_reads (by simp [h])).step ((expect_reads hdot _).step ?_)
  exact (expect_reads hmethod _).step (freshId_consumes.bind (.pure _))

theorem group {opening closing : Token} {inner : Expr} (hopen : opening.kind = .leftParen)
    (h : ConsumesPhrase .assignment i ts inner j) (hts : ts ≠ []) (hclose : closing.kind = .rightParen) :
    ConsumesPhrase .primary i (opening :: (ts ++ [closing])) (.grouping inner) j := by
  refine of_primary fun n t hn => peek_reads.step ?_
  simp only [List.length_append,List.length_cons] at hn
  simp only [List.headD_cons,hopen,List.append_assoc,List.cons_append,List.nil_append]
  refine (skip_reads (by simp [hopen])).step ?_
  refine (h.nested hts (by omega) (by rw [upcoming_cons,hclose]; decide)).bind ?_
  exact (expect_reads hclose _).step (.pure _)

end ConsumesPhrase

/-! ### Expressions -/

theorem expression_ne_nil {ts : List Token} {e : Expr} (h : Expression l i ts e j) : ts ≠ [] := by
  obtain ⟨t,us,rfl,-⟩ := h.starts
  exact List.cons_ne_nil t us

/-- A tight phrase does not look like an operator with its operand. -/
theorem upcoming_of_tight {ts : List Token} {e : Expr} (h : Expression l i ts e j)
    (hl : l = .call ∨ l = .primary) (t : List Token) : upcoming (ts ++ t) ∉ [Kind.bang,Kind.minus] := by
  obtain ⟨first,us,rfl,-,hp⟩ := h.starts
  have hfirst := hp hl
  intro hmem
  simp only [List.cons_append,upcoming_cons,List.mem_cons,List.not_mem_nil,or_false] at hmem
  rcases hmem with hk | hk <;> simp [hk,startsPrimary] at hfirst

/-- `commaSeparated` reads arguments that others precede, up to the closing parenthesis. -/
def ConsumesArguments (count : Nat) (i : Tally) (ts : List Token) (es : List Expr) (j : Tally) : Prop :=
  ∀ n m t, ts.length ≤ n → ts.length ≤ m → upcoming t = .rightParen → es ≠ [] →
    Consumes (commaSeparated (expression n) .tooManyArguments m count) i (ts ++ t) es j t

theorem consumesArguments_one {count : Nat} {first : Token} {ts : List Token} {e : Expr}
    (h : ConsumesPhrase .assignment (i.enter .tooManyArguments count first) (first :: ts) e j) :
    ConsumesArguments count i (first :: ts) [e] j := by
  intro n m t hn hm ht _
  have hitem : Consumes (limited (expression n) .tooManyArguments count) i (first :: (ts ++ t)) e j t :=
    .limited (h.nested (List.cons_ne_nil _ _) hn (by rw [ht]; decide))
  cases m with
  | zero => exact hitem.bind (.pure _)
  | succ m => exact hitem.bind ((take?_reads_none (by simp [ht])).step (.pure _))

theorem consumesArguments_more {count : Nat} {first comma : Token} {ts us : List Token} {e : Expr}
    {others : List Expr} (h : ConsumesPhrase .assignment (i.enter .tooManyArguments count first) (first :: ts) e j)
    (hcomma : comma.kind = .comma) (ho : ConsumesArguments (count + 1) j us others k) (hne : others ≠ []) :
    ConsumesArguments count i (first :: (ts ++ comma :: us)) (e :: others) k := by
  intro n m t hn hm ht _
  simp only [List.length_append,List.length_cons] at hn hm
  obtain ⟨m,rfl⟩ : ∃ m', m = m' + 1 := ⟨m - 1,by omega⟩
  have hnested := h.nested (n := n) (t := comma :: (us ++ t)) (List.cons_ne_nil _ _) (by simp; omega)
    (by rw [upcoming_cons,hcomma]; decide)
  simp only [List.cons_append,List.append_assoc]
  refine (Consumes.limited hnested).bind ((take?_reads (by simp [hcomma])).step ?_)
  exact (ho n m t (by omega) (by omega) ht hne).bind (.pure _)

theorem listed_consumes {α : Type} {item : Parser α} {fault : SyntaxFault} {ts : List Token} {xs : List α}
    (hnil : xs = [] → ts = [] ∧ i = j) (hstart : xs ≠ [] → ∀ t, upcoming (ts ++ t) ≠ .rightParen)
    (h : xs ≠ [] → Consumes (commaSeparated item fault n 0) i (ts ++ t) xs j t)
    (ht : upcoming t = .rightParen) : Consumes (listed item fault n) i (ts ++ t) xs j t := by
  refine peek_reads.step ?_
  by_cases hxs : xs = []
  · obtain ⟨rfl,rfl⟩ := hnil hxs
    subst hxs
    simp only [List.nil_append,show (t.headD (.eof 1)).kind = .rightParen from ht,if_true]
    exact .pure _
  · simp only [show ((ts ++ t).headD (.eof 1)).kind ≠ .rightParen from hstart hxs t,if_false]
    exact h hxs

theorem arguments_starts {count : Nat} {ts : List Token} {es : List Expr} (h : Arguments count i ts es j) :
    (es = [] → ts = [] ∧ i = j) ∧ (es ≠ [] → ∀ t, upcoming (ts ++ t) ≠ .rightParen) := by
  have hfirst {i ts e k} (h : Expression .assignment i ts e k) (t : List Token) :
      upcoming (ts ++ t) ≠ .rightParen := by
    obtain ⟨first,us,rfl,hs,-⟩ := h.starts
    intro hk
    simp only [List.cons_append,upcoming_cons] at hk
    simp [hk,startsExpression,startsPrimary] at hs
  cases h with
  | none => simp
  | one h => exact ⟨by simp,fun _ => hfirst h⟩
  | more h _ _ _ => exact ⟨by simp,fun _ _ => hfirst h []⟩

mutual

/-- The parser of a level reads every phrase of the level. -/
theorem expression_consumes {l : Precedence} {i j : Tally} {ts : List Token} {e : Expr} :
    Expression l i ts e j → ConsumesPhrase l i ts e j
  | .operand hl h => by
    refine (expression_consumes h).operand hl (expression_ne_nil h) ?_
    rintro rfl
    exact upcoming_of_tight h (.inl rfl)
  | .joined h hop hr => (expression_consumes h).joined hop (expression_consumes hr)
  | .assign hname heq h => (expression_consumes h).assign hname heq
  | .set ho hdot hname heq hv =>
    (expression_consumes ho).set (upcoming_of_tight ho (.inl rfl)) hdot hname heq (expression_consumes hv)
  | .ternary hc hq ha hcolon hb =>
    (expression_consumes hc).ternary hq (expression_consumes ha) (expression_ne_nil ha) hcolon
      (expression_consumes hb) (expression_ne_nil hb)
  | .unary hop h => (expression_consumes h).unary hop (expression_ne_nil h)
  | .call h hopen hargs hparen => by
    refine (expression_consumes h).call hopen (fun n t hn ht => ?_) hparen
    obtain ⟨hnil,hstart⟩ := arguments_starts hargs
    refine listed_consumes hnil hstart (fun hne => ?_) ht
    exact arguments_consumes hargs n n t hn hn ht hne
  | .get h hdot hname => (expression_consumes h).get hdot hname
  | .literal h => .literal h
  | .variable h => .identifier h
  | .this h => .this h
  | .super h hdot hmethod => .super h hdot hmethod
  | .group hopen h hclose => (expression_consumes h).group hopen (expression_ne_nil h) hclose

theorem arguments_consumes {count : Nat} {i j : Tally} {ts : List Token} {es : List Expr} :
    Arguments count i ts es j → ConsumesArguments count i ts es j
  | .none => fun _ _ _ _ _ _ hne => absurd rfl hne
  | .one h => consumesArguments_one (expression_consumes h)
  | .more h hcomma ho hne => consumesArguments_more (expression_consumes h) hcomma (arguments_consumes ho) hne

end

end Parser
end Lox

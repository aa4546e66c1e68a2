import Lox.Proofs.Alike.Tree
import Lox.Syntax.Parse

/-! Token lists that are alike are parsed alike, with the same errors, whichever identities have been given
out before. -/
namespace Lox

/-- Two parses at the same point. The second one's identities are ahead by a fixed number. -/
structure Reader.Alike (l : Likeness) (lead : Nat) (r r' : Reader) : Prop where
  rest : List.Forall₂ l.token r.rest r'.rest
  allocated : r'.allocated = r.allocated + lead
  supply : ∀ k, r.allocated ≤ k → l.id (.numbered k) (.numbered (k + lead))
  errors : List.Forall₂ (Error.Alike l) r.errors r'.errors

namespace Reader.Alike

variable {l : Likeness} {lead : Nat} {r r' : Reader}

theorem next (h : r.Alike l lead r') : l.token r.next r'.next := by
  obtain ⟨ts,_,_,_⟩ := r
  obtain ⟨ts',_,_,_⟩ := r'
  have hrest : List.Forall₂ l.token ts ts' := h.rest
  cases hrest with
  | nil => exact l.eof
  | cons ht _ => exact ht

theorem record {e e' : Error} (h : r.Alike l lead r') (he : e.Alike l e') :
    (r.record e).Alike l lead (r'.record e') :=
  ⟨h.rest,h.allocated,h.supply,.cons he h.errors⟩

theorem note (h : r.Alike l lead r') (e e' : Event) : (r.note e).Alike l lead (r'.note e') :=
  ⟨h.rest,h.allocated,h.supply,h.errors⟩

theorem read {ts ts' : List Token} (h : r.Alike l lead r') (hts : List.Forall₂ l.token ts ts') :
    Reader.Alike l lead { r with rest := ts } { r' with rest := ts' } :=
  ⟨hts,h.allocated,h.supply,h.errors⟩

end Reader.Alike

namespace Parser

/-- From readers that are alike two parsers come to readers that are alike, with related results or with
errors that are alike. -/
structure Alike {α β : Type} (l : Likeness) (lead : Nat) (R : α → β → Prop) (p : Parser α) (q : Parser β) :
    Prop where
  ok : ∀ {r r' a r₁}, r.Alike l lead r' → p r = .ok a r₁ →
    ∃ b r₁', q r' = .ok b r₁' ∧ R a b ∧ r₁.Alike l lead r₁'
  error : ∀ {r r' e r₁}, r.Alike l lead r' → p r = .error e r₁ →
    ∃ e' r₁', q r' = .error e' r₁' ∧ e.Alike l e' ∧ r₁.Alike l lead r₁'

variable {α β γ δ : Type} {l : Likeness} {lead : Nat} {R : α → β → Prop} {S : γ → δ → Prop}
  {p : Parser α} {q : Parser β}

namespace Alike

theorem pure {a : α} {b : β} (h : R a b) : Alike l lead R (pure a) (pure b) where
  ok hr hp := by
    cases hp
    exact ⟨b,_,rfl,h,hr⟩
  error _ hp := by cases hp

theorem bind {f : α → Parser γ} {g : β → Parser δ} (h : Alike l lead R p q)
    (hf : ∀ a b, R a b → Alike l lead S (f a) (g b)) : Alike l lead S (p >>= f) (q >>= g) where
  ok {r r' c r₂} hr hp := by
    simp only [Bind.bind,EStateM.bind] at hp ⊢
    split at hp
    next a r₁ ha =>
      obtain ⟨b,r₁',hb,hab,hr₁⟩ := h.ok hr ha
      rw [hb]
      exact (hf a b hab).ok hr₁ hp
    next => cases hp
  error {r r' e r₂} hr hp := by
    simp only [Bind.bind,EStateM.bind] at hp ⊢
    split at hp
    next a r₁ ha =>
      obtain ⟨b,r₁',hb,hab,hr₁⟩ := h.ok hr ha
      rw [hb]
      exact (hf a b hab).error hr₁ hp
    next he =>
      cases hp
      obtain ⟨e',r₁',hq,hee',hr₁⟩ := h.error hr he
      exact ⟨e',r₁',by rw [hq],hee',hr₁⟩

theorem map {f : α → γ} {g : β → δ} (h : Alike l lead R p q) (hf : ∀ a b, R a b → S (f a) (g b)) :
    Alike l lead S (f <$> p) (g <$> q) := by
  rw [map_eq_pure_bind,map_eq_pure_bind]
  exact h.bind fun a b hab => .pure (hf a b hab)

/-! ### Steps -/

theorem fail (fault : SyntaxFault) : Alike l lead R (fail fault) (fail fault) where
  ok _ hp := by cases hp
  error hr hp := by
    cases hp
    exact ⟨_,_,rfl,.syntactic hr.next,hr.note _ _⟩

theorem bind_peek {f : Token → Parser γ} {g : Token → Parser δ}
    (h : ∀ t t', l.token t t' → Alike l lead S (f t) (g t')) :
    Alike l lead S (peek >>= f) (peek >>= g) where
  ok hr hp := (h _ _ hr.next).ok hr hp
  error hr hp := (h _ _ hr.next).error hr hp

theorem bind_note {e e' : Event} {f : Unit → Parser γ} {g : Unit → Parser δ}
    (h : Alike l lead S (f ()) (g ())) : Alike l lead S (note e >>= f) (note e' >>= g) where
  ok hr hp := h.ok (hr.note e e') hp
  error hr hp := h.error (hr.note e e') hp

theorem bind_report {fault : SyntaxFault} {t t' : Token} {f : Unit → Parser γ} {g : Unit → Parser δ}
    (ht : l.token t t') (h : Alike l lead S (f ()) (g ())) :
    Alike l lead S (report fault t >>= f) (report fault t' >>= g) where
  ok hr hp := h.ok ((hr.note _ _).record (.syntactic ht)) hp
  error hr hp := h.error ((hr.note _ _).record (.syntactic ht)) hp

theorem bind_freshId {f : ExprId → Parser γ} {g : ExprId → Parser δ}
    (h : ∀ i i', l.id i i' → Alike l lead S (f i) (g i')) :
    Alike l lead S (freshId >>= f) (freshId >>= g) := by
  have hfresh : Alike l lead l.id freshId freshId := by
    refine ⟨fun {r r' a r₁} hr hp => ?_,fun hr hp => by cases hp⟩
    cases hp
    refine ⟨_,_,rfl,?_,hr.rest,?_,fun k hk => hr.supply k (Nat.le_of_succ_le hk),hr.errors⟩
    · rw [hr.allocated]
      exact hr.supply _ (Nat.le_refl _)
    · simp only [hr.allocated]
      omega
  exact hfresh.bind h

theorem bind_skip {f : Unit → Parser γ} {g : Unit → Parser δ} (h : Alike l lead S (f ()) (g ())) :
    Alike l lead S (skip >>= f) (skip >>= g) := by
  have hskip : Alike l lead (fun _ _ => True) skip skip := by
    refine ⟨fun {r r' a r₁} hr hp => ?_,fun hr hp => by cases hp⟩
    obtain ⟨ts,_,_,_⟩ := r
    obtain ⟨ts',_,_,_⟩ := r'
    have hrest : List.Forall₂ l.token ts ts' := hr.rest
    cases hp
    refine ⟨(),_,rfl,trivial,?_⟩
    cases hrest with
    | nil => exact hr
    | @cons t t' _ _ ht hts =>
      simp only [l.isEof ht]
      split
      · exact hr
      · exact hr.read hts
  exact hskip.bind fun _ _ _ => h

theorem bind_take? {kinds : List Kind} {f : Option Token → Parser γ} {g : Option Token → Parser δ}
    (hnone : Alike l lead S (f none) (g none))
    (hsome : ∀ t t', l.token t t' → Alike l lead S (f (some t)) (g (some t'))) :
    Alike l lead S (take? kinds >>= f) (take? kinds >>= g) := by
  have htake : Alike l lead (Option.Rel l.token) (take? kinds) (take? kinds) := by
    refine ⟨fun {r r' a r₁} hr hp => ?_,fun {r r' e r₁} hr hp => ?_⟩
    · obtain ⟨ts,_,_,_⟩ := r
      obtain ⟨ts',_,_,_⟩ := r'
      have hrest : List.Forall₂ l.token ts ts' := hr.rest
      cases hrest with
      | nil =>
        cases hp
        exact ⟨_,_,rfl,.none,hr⟩
      | cons ht hts =>
        simp only [take?,l.kind ht] at hp ⊢
        split at hp <;> cases hp
        next hk => exact ⟨_,_,if_pos hk,.some ht,hr.read hts⟩
        next hk => exact ⟨_,_,if_neg hk,.none,hr⟩
    · simp only [take?] at hp
      split at hp
      · split at hp <;> cases hp
      · cases hp
  refine htake.bind fun found found' hfound => ?_
  cases hfound with
  | none => exact hnone
  | some ht => exact hsome _ _ ht

theorem expect (kind : Kind) (what : Expectation) :
    Alike l lead l.token (expect kind what) (expect kind what) :=
  .bind_take? (.fail _) fun _ _ ht => .pure ht

theorem bind_expect {kind : Kind} {what : Expectation} {f : Token → Parser γ} {g : Token → Parser δ}
    (h : ∀ t t', l.token t t' → Alike l lead S (f t) (g t')) :
    Alike l lead S (Parser.expect kind what >>= f) (Parser.expect kind what >>= g) :=
  (Alike.expect kind what).bind h

end Alike

/-! ### Lists -/

/-- Lists of items that are related one by one. -/
theorem manyUntil_alike {item : Parser (Option α)} {item' : Parser (Option β)} {T : List α → List β → Prop}
    (h : Alike l lead (Option.Rel R) item item') (hnil : T [] [])
    (hcons : ∀ {a b as bs}, R a b → T as bs → T (a :: as) (b :: bs)) (closing : List Kind) (n : Nat) :
    Alike l lead T (manyUntil closing item n) (manyUntil closing item' n) := by
  induction n with
  | zero => exact .pure hnil
  | succ n ih =>
    refine .bind_peek fun t t' ht => ?_
    rw [l.kind ht]
    split
    · exact .pure hnil
    · refine h.bind fun found found' hfound => ih.bind fun as bs has => .pure ?_
      cases hfound with
      | none => exact has
      | some hab => exact hcons hab has

theorem limited_alike {fault : SyntaxFault} (h : Alike l lead R p q) (count : Nat) :
    Alike l lead R (limited p fault count) (limited q fault count) := by
  unfold limited
  split
  · exact .bind_peek fun t t' ht => .bind_report ht h
  · exact h

theorem commaSeparated_alike {fault : SyntaxFault} {T : List α → List β → Prop} (h : Alike l lead R p q)
    (hnil : T [] []) (hcons : ∀ {a b as bs}, R a b → T as bs → T (a :: as) (b :: bs)) (n : Nat) :
    ∀ count, Alike l lead T (commaSeparated p fault n count) (commaSeparated q fault n count) := by
  induction n with
  | zero => exact fun count => (limited_alike h count).bind fun a b hab => .pure (hcons hab hnil)
  | succ n ih =>
    refine fun count => (limited_alike h count).bind fun a b hab => .bind_take? ?_ fun _ _ _ => ?_
    · exact .pure (hcons hab hnil)
    · exact (ih (count + 1)).bind fun as bs has => .pure (hcons hab has)

theorem listed_alike {fault : SyntaxFault} {T : List α → List β → Prop} (h : Alike l lead R p q)
    (hnil : T [] []) (hcons : ∀ {a b as bs}, R a b → T as bs → T (a :: as) (b :: bs)) (n : Nat) :
    Alike l lead T (listed p fault n) (listed q fault n) := by
  refine .bind_peek fun t t' ht => ?_
  rw [l.kind ht]
  split
  · exact .pure hnil
  · exact commaSeparated_alike h hnil hcons n 0

/-! ### Expressions -/

variable {inner inner' operand operand' : Parser Expr}

theorem primary_alike (h : Alike l lead (Expr.Alike l) inner inner') :
    Alike l lead (Expr.Alike l) (primary inner) (primary inner') := by
  refine .bind_peek fun t t' ht => ?_
  rw [l.kind ht]
  cases t.kind with
  | kwFalse | kwTrue | kwNil | number | string => exact .bind_skip (.pure .literal)
  | identifier => exact .bind_freshId fun i i' hi => .bind_skip (.pure (.variable hi ht))
  | kwThis => exact .bind_freshId fun i i' hi => .bind_skip (.pure (.this hi ht))
  | kwSuper =>
    refine .bind_skip (.bind_expect fun _ _ _ => .bind_expect fun method method' hmethod => ?_)
    exact .bind_freshId fun i i' hi => .pure (.super hi ht hmethod)
  | leftParen =>
    refine .bind_skip (h.bind fun e e' he => .bind_expect fun _ _ _ => ?_)
    exact .pure (.grouping he)
  | _ => exact .fail _

theorem suffixes_alike {arguments arguments' : Parser (List Expr)}
    (h : Alike l lead (Expr.ListAlike l) arguments arguments') (n : Nat) : ∀ {e e' : Expr}, e.Alike l e' →
      Alike l lead (Expr.Alike l) (suffixes arguments n e) (suffixes arguments' n e') := by
  induction n with
  | zero => exact fun he => .pure he
  | succ n ih =>
    refine fun he => .bind_take? (.pure he) fun t t' ht => ?_
    simp only [l.kind ht]
    split
    · exact h.bind fun es es' hes => .bind_expect fun paren paren' hparen => ih (.call he hparen hes)
    · exact .bind_expect fun name name' hname => ih (.get he hname)

theorem call_alike (h : Alike l lead (Expr.Alike l) inner inner') (n : Nat) :
    Alike l lead (Expr.Alike l) (call inner n) (call inner' n) :=
  (primary_alike h).bind fun _ _ he => suffixes_alike (listed_alike h .nil .cons n) n he

theorem unary_alike (h : Alike l lead (Expr.Alike l) operand operand') (n : Nat) :
    Alike l lead (Expr.Alike l) (unary operand n) (unary operand' n) := by
  induction n with
  | zero => exact h
  | succ n ih =>
    refine .bind_take? h fun operator operator' hoperator => ?_
    exact ih.bind fun e e' he => .pure (.unary hoperator he)

theorem leftGrouped_alike {node : Expr → Token → Expr → Expr}
    (hnode : ∀ {a a' t t' b b'}, Expr.Alike l a a' → l.token t t' → Expr.Alike l b b' →
      Expr.Alike l (node a t b) (node a' t' b'))
    (operators : List Kind) (h : Alike l lead (Expr.Alike l) operand operand') (n : Nat) :
    Alike l lead (Expr.Alike l) (leftGrouped node operators operand n)
      (leftGrouped node operators operand' n) := by
  have hchain (n : Nat) : ∀ {left left' : Expr}, left.Alike l left' → Alike l lead (Expr.Alike l)
      (chain node operators operand n left) (chain node operators operand' n left') := by
    induction n with
    | zero => exact fun hleft => .pure hleft
    | succ n ih =>
      refine fun hleft => .bind_take? (.pure hleft) fun operator operator' hoperator => ?_
      exact h.bind fun right right' hright => ih (hnode hleft hoperator hright)
  exact h.bind fun _ _ hleft => hchain n hleft

theorem ternary_alike (h : Alike l lead (Expr.Alike l) inner inner')
    (hoperand : Alike l lead (Expr.Alike l) operand operand') (n : Nat) :
    Alike l lead (Expr.Alike l) (ternary inner operand n) (ternary inner' operand' n) := by
  induction n with
  | zero => exact hoperand
  | succ n ih =>
    refine hoperand.bind fun a a' ha => .bind_take? (.pure ha) fun _ _ _ => ?_
    refine h.bind fun b b' hb => .bind_expect fun _ _ _ => ih.bind fun c c' hc => ?_
    exact .pure (.ternary ha hb hc)

theorem assignment_alike (h : Alike l lead (Expr.Alike l) operand operand') (n : Nat) :
    Alike l lead (Expr.Alike l) (assignment operand n) (assignment operand' n) := by
  induction n with
  | zero => exact h
  | succ n ih =>
    refine h.bind fun target target' htarget => .bind_take? (.pure htarget) fun equals equals' heq => ?_
    refine ih.bind fun value value' hvalue => ?_
    have hother : Alike l lead (Expr.Alike l)
        (report .invalidAssignmentTarget equals >>= fun _ => Pure.pure target)
        (report .invalidAssignmentTarget equals' >>= fun _ => Pure.pure target') :=
      .bind_report heq (.pure htarget)
    cases htarget with
    | «variable» _ hname => exact .bind_freshId fun i i' hi => .pure (.assign hi hname hvalue)
    | get hobject hname => exact .pure (.set hobject hname hvalue)
    | _ => exact hother

theorem expression_alike (n : Nat) : Alike l lead (Expr.Alike l) (expression n) (expression n) := by
  induction n with
  | zero => exact .fail _
  | succ n ih =>
    have hunary := unary_alike (call_alike ih n) n
    have hfactor := leftGrouped_alike .binary [.slash,.star] hunary n
    have hterm := leftGrouped_alike .binary [.minus,.plus] hfactor n
    have hcomparison := leftGrouped_alike .binary [.greater,.greaterEqual,.less,.lessEqual] hterm n
    have hequality := leftGrouped_alike .binary [.bangEqual,.equalEqual] hcomparison n
    have hand := leftGrouped_alike .logical [.kwAnd] (ternary_alike ih hequality n) n
    exact assignment_alike (leftGrouped_alike .logical [.kwOr] hand n) n

/-! ### Clauses -/

theorem expressionUnless_alike (kind : Kind) (n : Nat) :
    Alike l lead (Expr.OptionAlike l) (expressionUnless kind n) (expressionUnless kind n) := by
  refine .bind_peek fun t t' ht => ?_
  rw [l.kind ht]
  split
  · exact .pure .none
  · exact (expression_alike n).map fun _ _ he => .some he

theorem superclassClause_alike :
    Alike l lead (Expr.OptionAlike l) superclassClause superclassClause := by
  refine .bind_take? (.pure .none) fun _ _ _ => .bind_expect fun parent parent' hparent => ?_
  exact .bind_freshId fun i i' hi => .pure (.some (.variable hi hparent))

theorem varDeclaration_alike (n : Nat) :
    Alike l lead (Stmt.Alike l) (varDeclaration n) (varDeclaration n) := by
  have hvalue : Alike l lead (Expr.OptionAlike l) (initialValue n) (initialValue n) :=
    .bind_take? (.pure .none) fun _ _ _ => (expression_alike n).map fun _ _ he => .some he
  refine .bind_expect fun name name' hname => hvalue.bind fun e e' he => ?_
  exact .bind_expect fun _ _ _ => .pure (.var hname he)

theorem expressionStatement_alike (n : Nat) :
    Alike l lead (Stmt.Alike l) (expressionStatement n) (expressionStatement n) :=
  (expression_alike n).bind fun _ _ he => .bind_expect fun _ _ _ => .pure (.expression he)

theorem forInitializer_alike (n : Nat) :
    Alike l lead (Stmt.OptionAlike l) (forInitializer n) (forInitializer n) := by
  refine .bind_take? ?_ fun t t' ht => ?_
  · exact (expressionStatement_alike n).map fun _ _ hs => .some hs
  · simp only [l.kind ht]
    split
    · exact .pure .none
    · exact (varDeclaration_alike n).map fun _ _ hs => .some hs

theorem forLoop_alike {initializer initializer' : Option Stmt} {condition condition' : Option Expr}
    {increment increment' : Option Expr} {body body' : Stmt}
    (hinitializer : Stmt.OptionAlike l initializer initializer')
    (hcondition : Expr.OptionAlike l condition condition')
    (hincrement : Expr.OptionAlike l increment increment') (hbody : body.Alike l body') :
    (forLoop initializer condition increment body).Alike l
      (forLoop initializer' condition' increment' body') := by
  have hguard : (condition.getD (.literal (.boolean true))).Alike l
      (condition'.getD (.literal (.boolean true))) := by
    cases hcondition with
    | none => exact .literal
    | some he => exact he
  cases hincrement with
  | none =>
    cases hinitializer with
    | none => exact .loop hguard hbody
    | some hs => exact .block (.cons hs (.cons (.loop hguard hbody) .nil))
  | some he =>
    have hstep := Stmt.Alike.block (.cons hbody (.cons (.expression he) .nil))
    cases hinitializer with
    | none => exact .loop hguard hstep
    | some hs => exact .block (.cons hs (.cons (.loop hguard hstep) .nil))

/-! ### Statements and declarations -/

variable {statement statement' : Parser Stmt} {further further' : Parser (Option Stmt)}
  {keyword keyword' : Token}

theorem block_alike (h : Alike l lead (Option.Rel (Stmt.Alike l)) further further') (n : Nat) :
    Alike l lead (Stmt.ListAlike l) (block further n) (block further' n) :=
  (manyUntil_alike h .nil .cons _ n).bind fun _ _ hs => .bind_expect fun _ _ _ => .pure hs

theorem function_alike (h : Alike l lead (Option.Rel (Stmt.Alike l)) further further') (kind : FunctionKind)
    (n : Nat) : Alike l lead (Stmt.FunctionAlike l) (function kind further n) (function kind further' n) := by
  have hparameters : Alike l lead (List.Forall₂ l.token)
      (listed (expect .identifier .parameterName) .tooManyParameters n)
      (listed (expect .identifier .parameterName) .tooManyParameters n) :=
    listed_alike (.expect _ _) .nil .cons n
  refine .bind_expect fun name name' hname => .bind_expect fun _ _ _ => ?_
  refine hparameters.bind fun ts ts' hts => .bind_expect fun _ _ _ => .bind_expect fun _ _ _ => ?_
  exact (block_alike h n).bind fun ss ss' hs => .pure (.mk hname hts hs)

theorem classDeclaration_alike (h : Alike l lead (Option.Rel (Stmt.Alike l)) further further') (n : Nat) :
    Alike l lead (Stmt.Alike l) (classDeclaration further n) (classDeclaration further' n) := by
  have hmethod : Alike l lead (Option.Rel (Stmt.FunctionAlike l)) (some <$> function .method further n)
      (some <$> function .method further' n) :=
    (function_alike h .method n).map fun _ _ hd => .some hd
  refine .bind_expect fun name name' hname => superclassClause_alike.bind fun e e' he => ?_
  refine .bind_expect fun _ _ _ => ?_
  refine (manyUntil_alike hmethod Stmt.FunctionsAlike.nil .cons _ n).bind fun ds ds' hds => ?_
  exact .bind_expect fun _ _ _ => .bind_note (.pure (.class hname he hds))

theorem forStatement_alike (h : Alike l lead (Stmt.Alike l) statement statement') (n : Nat) :
    Alike l lead (Stmt.Alike l) (forStatement keyword statement n) (forStatement keyword' statement' n) := by
  refine .bind_expect fun _ _ _ => (forInitializer_alike n).bind fun s s' hs => ?_
  refine (expressionUnless_alike _ n).bind fun condition condition' hcondition => ?_
  refine .bind_expect fun _ _ _ => ?_
  refine (expressionUnless_alike _ n).bind fun increment increment' hincrement => ?_
  refine .bind_expect fun _ _ _ => h.bind fun body body' hbody => .bind_note ?_
  exact .pure (forLoop_alike hs hcondition hincrement hbody)

theorem ifStatement_alike (h : Alike l lead (Stmt.Alike l) statement statement') (n : Nat) :
    Alike l lead (Stmt.Alike l) (ifStatement statement n) (ifStatement statement' n) := by
  refine .bind_expect fun _ _ _ => (expression_alike n).bind fun e e' he => ?_
  refine .bind_expect fun _ _ _ => h.bind fun a a' ha => .bind_take? (.pure (.branch he ha .none)) ?_
  exact fun _ _ _ => h.bind fun b b' hb => .pure (.branch he ha (.some hb))

theorem whileStatement_alike (h : Alike l lead (Stmt.Alike l) statement statement') (n : Nat) :
    Alike l lead (Stmt.Alike l) (whileStatement statement n) (whileStatement statement' n) := by
  refine .bind_expect fun _ _ _ => (expression_alike n).bind fun e e' he => ?_
  exact .bind_expect fun _ _ _ => h.bind fun s s' hs => .pure (.loop he hs)

theorem returnStatement_alike (hkeyword : l.token keyword keyword') (n : Nat) :
    Alike l lead (Stmt.Alike l) (returnStatement keyword n) (returnStatement keyword' n) :=
  (expressionUnless_alike _ n).bind fun _ _ he => .bind_expect fun _ _ _ => .pure (.return hkeyword he)

theorem printStatement_alike (n : Nat) :
    Alike l lead (Stmt.Alike l) (printStatement n) (printStatement n) :=
  (expression_alike n).bind fun _ _ he => .bind_expect fun _ _ _ => .pure (.print he)

theorem statement_alike (h : Alike l lead (Stmt.Alike l) statement statement')
    (hd : Alike l lead (Option.Rel (Stmt.Alike l)) further further') (n : Nat) :
    Alike l lead (Stmt.Alike l) (Parser.statement statement further n)
      (Parser.statement statement' further' n) := by
  refine .bind_take? (expressionStatement_alike n) fun t t' ht => ?_
  simp only [l.kind ht]
  split
  · exact forStatement_alike h n
  · exact ifStatement_alike h n
  · exact whileStatement_alike h n
  · exact returnStatement_alike ht n
  · exact (block_alike hd n).map fun _ _ hs => .block hs
  · exact printStatement_alike n

/-! ### Error recovery -/

theorem boundary_alike {t t' : Token} {ts ts' : List Token} (ht : l.token t t')
    (hts : List.Forall₂ l.token ts ts') : List.Forall₂ l.token (boundary t ts) (boundary t' ts') := by
  induction hts generalizing t t' with
  | nil => exact .nil
  | cons hu hus ih =>
    simp only [boundary,l.isEof hu,l.kind ht,l.kind hu]
    split
    · exact .cons hu hus
    · exact ih hu

theorem recover_alike {ts ts' : List Token} (hts : List.Forall₂ l.token ts ts') :
    List.Forall₂ l.token (recover ts) (recover ts') := by
  cases hts with
  | nil => exact .nil
  | cons ht hts =>
    simp only [recover,l.isEof ht]
    split
    · exact .cons ht hts
    · exact boundary_alike ht hts

theorem recovering_alike {p q : Parser Stmt} (h : Alike l lead (Stmt.Alike l) p q) :
    Alike l lead (Option.Rel (Stmt.Alike l)) (recovering p) (recovering q) where
  ok {r r' found r₁} hr hp := by
    simp only [recovering] at hp ⊢
    split at hp <;> cases hp
    next hs =>
      obtain ⟨s',r₁',hs',halike,hr₁⟩ := h.ok hr hs
      exact ⟨some s',r₁',by rw [hs'],.some halike,hr₁⟩
    next he =>
      obtain ⟨e',r₁',he',halike,hr₁⟩ := h.error hr he
      refine ⟨none,_,by rw [he'],.none,?_⟩
      exact ((hr₁.note _ _).record halike).read (recover_alike hr₁.rest)
  error {r r' e r₁} hr hp := by
    simp only [recovering] at hp
    split at hp <;> cases hp

theorem declarationOf_alike (h : Alike l lead (Stmt.Alike l) statement statement')
    (hd : Alike l lead (Option.Rel (Stmt.Alike l)) further further') (n : Nat) :
    Alike l lead (Option.Rel (Stmt.Alike l)) (declarationOf statement further n)
      (declarationOf statement' further' n) := by
  refine .bind_peek fun _ _ _ => .bind_note (recovering_alike (.bind_take? h fun t t' ht => ?_))
  simp only [l.kind ht]
  split
  · exact classDeclaration_alike hd n
  · exact (function_alike hd .function n).map fun _ _ hd => .function hd
  · exact varDeclaration_alike n

theorem innerStatement_declaration_alike (n : Nat) :
    Alike l lead (Stmt.Alike l) (innerStatement n) (innerStatement n) ∧
      Alike l lead (Option.Rel (Stmt.Alike l)) (declaration n) (declaration n) := by
  induction n with
  | zero => exact ⟨.fail _,recovering_alike (.fail _)⟩
  | succ n ih =>
    have hstatement := statement_alike ih.1 ih.2 (n + 1)
    exact ⟨hstatement,declarationOf_alike hstatement ih.2 (n + 1)⟩

end Parser

/-- Two parses with trees and errors that are alike, and with as many new identities. -/
structure Parsed.Alike (l : Likeness) (lead : Nat) (p p' : Parsed) : Prop where
  statements : Stmt.ListAlike l p.statements p'.statements
  errors : List.Forall₂ (Error.Alike l) p.errors p'.errors
  ids : p'.ids.allocated = p.ids.allocated + lead

theorem parse_alike {l : Likeness} {lead : Nat} {ts ts' : List Token} {ids ids' : ExprIds}
    (hts : List.Forall₂ l.token ts ts') (hids : ids'.allocated = ids.allocated + lead)
    (hsupply : ∀ k, ids.allocated ≤ k → l.id (.numbered k) (.numbered (k + lead))) :
    (parse ts ids).Alike l lead (parse ts' ids') := by
  have halike : Parser.Alike l lead (Stmt.ListAlike l)
      (Parser.manyUntil [.eof] (Parser.declaration (ts.length + 1)) (ts.length + 1))
      (Parser.manyUntil [.eof] (Parser.declaration (ts.length + 1)) (ts.length + 1)) :=
    Parser.manyUntil_alike (Parser.innerStatement_declaration_alike _).2 .nil .cons _ _
  have hstart : Reader.Alike l lead ⟨ts,ids.allocated,[],[.parsing,.parserCreated ts.length]⟩
      ⟨ts',ids'.allocated,[],[.parsing,.parserCreated ts'.length]⟩ := ⟨hts,hids,hsupply,.nil⟩
  simp only [parse,← hts.length_eq] at hstart ⊢
  split
  next ss r hr =>
    obtain ⟨ss',r',hr',hss,halike'⟩ := halike.ok hstart hr
    rw [hr']
    exact ⟨hss,List.rel_reverse halike'.errors,halike'.allocated⟩
  next e r hr =>
    obtain ⟨e',r',hr',he,halike'⟩ := halike.error hstart hr
    rw [hr']
    exact ⟨.nil,List.rel_reverse (halike'.record he).errors,halike'.allocated⟩

end Lox

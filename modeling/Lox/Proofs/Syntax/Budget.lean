import Lox.Proofs.Syntax.Steady

/-! Every rule stays together with itself on another budget, if both exceed the number of tokens. -/
namespace Lox
namespace Parser

variable {α : Type} {same moves : Prop} {k n m : Nat} {p q : Parser α}

/-! ### Lists -/

/-- A loop has as many rounds as there are tokens at most, since each round moves. -/
theorem manyUntil_steady {item item' : Parser (Option α)} {closing : List Kind} (hclosing : Kind.eof ∈ closing)
    (h : Steady same True k item item') (hn : k ≤ n) (hm : k ≤ m) :
    Steady same False k (manyUntil closing item n) (manyUntil closing item' m) := by
  -- On the tokens that are left, not on either budget: the two differ.
  induction k generalizing n m with
  | zero => exact .zero
  | succ k ih =>
    obtain ⟨n,rfl⟩ := Nat.exists_eq_add_of_le' hn
    obtain ⟨m,rfl⟩ := Nat.exists_eq_add_of_le' hm
    refine .bind_peek (fun t ht => ?_) fun t _ => ?_
    · rw [if_pos (ht ▸ hclosing),if_pos (ht ▸ hclosing)]
      exact .pure fun _ => rfl
    · split
      · exact (Steady.pure fun _ => rfl).inside
      · have hothers := ih (h.mono (Nat.le_succ k)) (show k ≤ n + k by omega) (show k ≤ m + k by omega)
        refine h.inside.bind fun found found' hfound => hothers.bind fun others others' hothers => .pure fun hs => ?_
        rw [hfound hs,hothers hs]

theorem limited_steady {fault : SyntaxFault} (hfault : fault.isFatal = false) (h : Steady same moves k p q)
    (count : Nat) : Steady same moves k (limited p fault count) (limited q fault count) := by
  unfold limited
  split
  · refine Steady.peek.bind fun t t' ht => ?_
    rw [ht trivial]
    exact (Steady.report hfault t').bind fun _ _ _ => h
  · exact h

theorem commaSeparated_steady {fault : SyntaxFault} (hfault : fault.isFatal = false)
    (h : Steady True moves k p q) (hn : k ≤ n) (hm : k ≤ m) (count : Nat) :
    Steady True False k (commaSeparated p fault n count) (commaSeparated q fault m count) := by
  induction k generalizing n m count with
  | zero => exact .zero
  | succ k ih =>
    obtain ⟨n,rfl⟩ := Nat.exists_eq_add_of_le' hn
    obtain ⟨m,rfl⟩ := Nat.exists_eq_add_of_le' hm
    refine (limited_steady hfault h count).bind fun x x' hx => ?_
    rw [hx trivial]
    refine .bind_take? (by simp) (.pure fun _ => rfl) fun t _ => ?_
    have hothers := ih (h.mono (Nat.le_succ k)) (show k ≤ n + k by omega) (show k ≤ m + k by omega) (count + 1)
    exact hothers.bind fun others others' hothers => .pure fun _ => by rw [hothers trivial]

theorem unless_steady (kind : Kind) (h : Steady True False k p q) (a : α) :
    Steady True False k (peek >>= fun t => if t.kind = kind then pure a else p)
      (peek >>= fun t => if t.kind = kind then pure a else q) := by
  refine Steady.peek.bind fun t t' ht => ?_
  rw [ht trivial]
  split
  · exact .pure fun _ => rfl
  · exact h

theorem listed_steady {fault : SyntaxFault} (hfault : fault.isFatal = false) (h : Steady True moves k p q)
    (hn : k ≤ n) (hm : k ≤ m) : Steady True False k (listed p fault n) (listed q fault m) :=
  unless_steady .rightParen (commaSeparated_steady hfault h hn hm 0) []

/-! ### Expressions -/

section Expressions

variable {inner inner' operand operand' : Parser Expr}

theorem primary_steady (h : Steady True False k inner inner') :
    Steady True False (k + 1) (primary inner) (primary inner') := by
  refine .bind_peek (fun t ht => ?_) fun t _ => ?_
  · rw [ht]
    exact .fail rfl
  · cases t.kind with
    | kwFalse | kwTrue | kwNil | number | string => exact .bind_skip (.pure fun _ => rfl)
    | identifier | kwThis => exact .bind_freshId fun _ => .bind_skip (.pure fun _ => rfl)
    | kwSuper =>
      refine .bind_skip ((Steady.expect (by simp) _).bind fun _ _ _ => ?_)
      refine (Steady.expect (by simp) _).bind fun method method' hmethod => ?_
      refine Steady.freshId.bind fun id id' hid => .pure fun _ => ?_
      rw [hmethod trivial,hid trivial]
    | leftParen =>
      refine .bind_skip (h.bind fun e e' he => (Steady.expect (by simp) _).bind fun _ _ _ => .pure fun _ => ?_)
      rw [he trivial]
    | _ => exact (Steady.fail rfl).inside

theorem suffixes_steady {arguments arguments' : Parser (List Expr)} (h : Steady True False k arguments arguments')
    (hn : k + 1 ≤ n) (hm : k + 1 ≤ m) (e : Expr) :
    Steady True False (k + 1) (suffixes arguments n e) (suffixes arguments' m e) := by
  induction k generalizing n m e with
  | zero =>
    obtain ⟨n,rfl⟩ := Nat.exists_eq_add_of_le' hn
    obtain ⟨m,rfl⟩ := Nat.exists_eq_add_of_le' hm
    exact .bind_take? (by simp) (.pure fun _ => rfl) fun _ _ => .zero
  | succ k ih =>
    obtain ⟨n,rfl⟩ := Nat.exists_eq_add_of_le' hn
    obtain ⟨m,rfl⟩ := Nat.exists_eq_add_of_le' hm
    have hlater := ih (h.mono (Nat.le_succ k)) (show k + 1 ≤ n + (k + 1) by omega)
      (show k + 1 ≤ m + (k + 1) by omega)
    refine .bind_take? (by simp) (.pure fun _ => rfl) fun t _ => ?_
    dsimp only
    split
    · refine h.bind fun args args' hargs => (Steady.expect (by simp) _).bind fun paren paren' hparen => ?_
      rw [hargs trivial,hparen trivial]
      exact hlater _
    · refine (Steady.expect (by simp) _).bind fun name name' hname => ?_
      rw [hname trivial]
      exact hlater _

theorem unary_steady (h : Steady True False k operand operand') (hn : k ≤ n) (hm : k ≤ m) :
    Steady True False k (unary operand n) (unary operand' m) := by
  induction k generalizing n m with
  | zero => exact .zero
  | succ k ih =>
    obtain ⟨n,rfl⟩ := Nat.exists_eq_add_of_le' hn
    obtain ⟨m,rfl⟩ := Nat.exists_eq_add_of_le' hm
    refine .bind_take? (by simp) h fun t _ => ?_
    have hlater := ih (h.mono (Nat.le_succ k)) (show k ≤ n + k by omega) (show k ≤ m + k by omega)
    exact hlater.bind fun right right' hright => .pure fun _ => by rw [hright trivial]

theorem leftGrouped_steady (node : Expr → Token → Expr → Expr) (operators : List Kind)
    (hoperators : Kind.eof ∉ operators) (h : Steady True False k operand operand') (hn : k ≤ n) (hm : k ≤ m) :
    Steady True False k (leftGrouped node operators operand n) (leftGrouped node operators operand' m) := by
  have hchain (left : Expr) :
      Steady True False k (chain node operators operand n left) (chain node operators operand' m left) := by
    induction k generalizing n m left with
    | zero => exact .zero
    | succ k ih =>
      obtain ⟨n,rfl⟩ := Nat.exists_eq_add_of_le' hn
      obtain ⟨m,rfl⟩ := Nat.exists_eq_add_of_le' hm
      have h := h.mono (Nat.le_succ k)
      refine .bind_take? hoperators (.pure fun _ => rfl) fun operator _ => ?_
      refine h.bind fun right right' hright => ?_
      rw [hright trivial]
      exact ih h (show k ≤ n + k by omega) (show k ≤ m + k by omega) _
  refine h.bind fun left left' hleft => ?_
  rw [hleft trivial]
  exact hchain left'

theorem ternary_steady (h : Steady True False k inner inner') (hoperand : Steady True False (k + 1) operand operand')
    (hn : k + 1 ≤ n) (hm : k + 1 ≤ m) :
    Steady True False (k + 1) (ternary inner operand n) (ternary inner' operand' m) := by
  induction k generalizing n m with
  | zero =>
    obtain ⟨n,rfl⟩ := Nat.exists_eq_add_of_le' hn
    obtain ⟨m,rfl⟩ := Nat.exists_eq_add_of_le' hm
    refine hoperand.bind fun condition condition' hcondition => ?_
    rw [hcondition trivial]
    exact .bind_take? (by simp) (.pure fun _ => rfl) fun _ _ => .zero
  | succ k ih =>
    obtain ⟨n,rfl⟩ := Nat.exists_eq_add_of_le' hn
    obtain ⟨m,rfl⟩ := Nat.exists_eq_add_of_le' hm
    have hlater := ih (h.mono (Nat.le_succ k)) (hoperand.mono (Nat.le_succ _))
      (show k + 1 ≤ n + (k + 1) by omega) (show k + 1 ≤ m + (k + 1) by omega)
    refine hoperand.bind fun condition condition' hcondition => ?_
    rw [hcondition trivial]
    refine .bind_take? (by simp) (.pure fun _ => rfl) fun _ _ => ?_
    refine h.bind fun ifTrue ifTrue' hifTrue => (Steady.expect (by simp) _).bind fun _ _ _ => ?_
    refine hlater.bind fun ifFalse ifFalse' hifFalse => .pure fun _ => ?_
    rw [hifTrue trivial,hifFalse trivial]

theorem assignment_steady (h : Steady True False k operand operand') (hn : k ≤ n) (hm : k ≤ m) :
    Steady True False k (assignment operand n) (assignment operand' m) := by
  induction k generalizing n m with
  | zero => exact .zero
  | succ k ih =>
    obtain ⟨n,rfl⟩ := Nat.exists_eq_add_of_le' hn
    obtain ⟨m,rfl⟩ := Nat.exists_eq_add_of_le' hm
    have hlater := ih (h.mono (Nat.le_succ k)) (show k ≤ n + k by omega) (show k ≤ m + k by omega)
    refine h.bind fun target target' htarget => ?_
    obtain rfl := htarget trivial
    refine .bind_take? (by simp) (.pure fun _ => rfl) fun equals _ => ?_
    refine hlater.bind fun value value' hvalue => ?_
    obtain rfl := hvalue trivial
    cases target with
    | «variable» =>
      refine Steady.freshId.bind fun id id' hid => .pure fun _ => ?_
      rw [hid trivial]
    | get => exact .pure fun _ => rfl
    | _ => exact (Steady.report rfl equals).bind fun _ _ _ => .pure fun _ => rfl

theorem expression_steady (hn : k < n) (hm : k < m) : Steady True False k (expression n) (expression m) := by
  induction k generalizing n m with
  | zero => exact .zero
  | succ k ih =>
    obtain ⟨n,rfl⟩ := Nat.exists_eq_add_of_lt hn
    obtain ⟨m,rfl⟩ := Nat.exists_eq_add_of_lt hm
    have hn' : k + 1 ≤ k + 1 + n := Nat.le_add_right _ _
    have hm' : k + 1 ≤ k + 1 + m := Nat.le_add_right _ _
    have hinner : Steady True False k (expression (k + 1 + n)) (expression (k + 1 + m)) := ih (by omega) (by omega)
    have hcall : Steady True False (k + 1) (call (expression (k + 1 + n)) (k + 1 + n))
        (call (expression (k + 1 + m)) (k + 1 + m)) := by
      refine (primary_steady hinner).bind fun e e' he => ?_
      rw [he trivial]
      exact suffixes_steady (listed_steady rfl hinner (Nat.le_of_succ_le hn') (Nat.le_of_succ_le hm')) hn' hm' e'
    have hunary := unary_steady hcall hn' hm'
    have hfactor := leftGrouped_steady .binary [.slash,.star] (by simp) hunary hn' hm'
    have hterm := leftGrouped_steady .binary [.minus,.plus] (by simp) hfactor hn' hm'
    have hcomparison :=
      leftGrouped_steady .binary [.greater,.greaterEqual,.less,.lessEqual] (by simp) hterm hn' hm'
    have hequality := leftGrouped_steady .binary [.bangEqual,.equalEqual] (by simp) hcomparison hn' hm'
    have hternary := ternary_steady hinner hequality hn' hm'
    have hand := leftGrouped_steady .logical [.kwAnd] (by simp) hternary hn' hm'
    have hor := leftGrouped_steady .logical [.kwOr] (by simp) hand hn' hm'
    exact assignment_steady hor hn' hm'

end Expressions

/-! ### Statements -/

section Statements

variable {statement statement' : Parser Stmt} {further further' : Parser (Option Stmt)}

theorem block_steady (h : Steady same True k further further') (hn : k ≤ n) (hm : k ≤ m) :
    Steady same False k (block further n) (block further' m) := by
  refine (manyUntil_steady (by simp) h hn hm).bind fun body body' hbody => ?_
  exact (Steady.expect (by simp) _).bind fun _ _ _ => .pure hbody

theorem function_steady (kind : FunctionKind) (h : Steady same True k further further') (hn : k ≤ n)
    (hm : k ≤ m) : Steady same True k (function kind further n) (function kind further' m) := by
  refine (Steady.expect (by simp) _).bind_moves fun name name' hname => ?_
  refine (Steady.expect (by simp) _).bind fun _ _ _ => ?_
  have hlisted : Steady True False k (listed (expect .identifier .parameterName) .tooManyParameters n)
      (listed (expect .identifier .parameterName) .tooManyParameters m) :=
    listed_steady rfl (.expect (by simp) _) hn hm
  refine hlisted.bind fun parameters parameters' hparameters => ?_
  refine (Steady.expect (by simp) _).bind fun _ _ _ => (Steady.expect (by simp) _).bind fun _ _ _ => ?_
  refine (block_steady h hn hm).bind fun body body' hbody => .pure fun hs => ?_
  rw [hname trivial,hparameters trivial,hbody hs]

theorem superclassClause_steady : Steady True False k superclassClause superclassClause := by
  cases k with
  | zero => exact .zero
  | succ k =>
    refine .bind_take? (by simp) (.pure fun _ => rfl) fun _ _ => ?_
    refine (Steady.expect (by simp) _).bind fun parent parent' hparent => ?_
    refine Steady.freshId.bind fun id id' hid => .pure fun _ => ?_
    rw [hparent trivial,hid trivial]

theorem classDeclaration_steady (h : Steady same True k further further') (hn : k ≤ n) (hm : k ≤ m) :
    Steady same False k (classDeclaration further n) (classDeclaration further' m) := by
  refine (Steady.expect (by simp) _).bind fun name name' hname => ?_
  refine superclassClause_steady.bind fun superclass superclass' hsuperclass => ?_
  refine (Steady.expect (by simp) _).bind fun _ _ _ => ?_
  refine (manyUntil_steady (by simp) (function_steady .method h hn hm).map hn hm).bind fun ds ds' hds => ?_
  refine (Steady.expect (by simp) _).bind fun _ _ _ => (Steady.note _ _).bind fun _ _ _ => ?_
  refine .pure fun hs => ?_
  rw [hname trivial,hsuperclass trivial,hds hs]

theorem expressionUnless_steady (kind : Kind) (hn : k < n) (hm : k < m) :
    Steady True False k (expressionUnless kind n) (expressionUnless kind m) :=
  unless_steady kind (expression_steady hn hm).map none

theorem varDeclaration_steady (hn : k < n) (hm : k < m) :
    Steady True False k (varDeclaration n) (varDeclaration m) := by
  refine (Steady.expect (by simp) _).bind fun name name' hname => ?_
  have hinitial : Steady True False k (initialValue n) (initialValue m) := by
    cases k with
    | zero => exact .zero
    | succ k =>
      refine .bind_take? (by simp) (.pure fun _ => rfl) fun _ _ => ?_
      exact (expression_steady (Nat.lt_of_succ_lt hn) (Nat.lt_of_succ_lt hm)).map
  refine hinitial.bind fun initializer initializer' hinitializer => ?_
  refine (Steady.expect (by simp) _).bind fun _ _ _ => .pure fun _ => ?_
  rw [hname trivial,hinitializer trivial]

theorem expressionStatement_steady (hn : k < n) (hm : k < m) :
    Steady True True k (expressionStatement n) (expressionStatement m) := by
  refine (expression_steady hn hm).bind fun e e' he => ?_
  refine (Steady.expect (by simp) _).bind_moves fun _ _ _ => .pure fun _ => ?_
  rw [he trivial]

theorem forInitializer_steady (hn : k < n) (hm : k < m) :
    Steady True False k (forInitializer n) (forInitializer m) := by
  cases k with
  | zero => exact .zero
  | succ k =>
    refine .bind_take? (by simp) ?_ fun t _ => ?_
    · exact ((expressionStatement_steady hn hm).weaken id False.elim).map
    · dsimp only
      split
      · exact .pure fun _ => rfl
      · exact (varDeclaration_steady (Nat.lt_of_succ_lt hn) (Nat.lt_of_succ_lt hm)).map

theorem forStatement_steady (keyword : Token) (h : Steady same moves k statement statement') (hn : k < n)
    (hm : k < m) : Steady same False k (forStatement keyword statement n) (forStatement keyword statement' m) := by
  refine (Steady.expect (by simp) _).bind fun _ _ _ => ?_
  refine (forInitializer_steady hn hm).bind fun initializer initializer' hinitializer => ?_
  refine (expressionUnless_steady _ hn hm).bind fun condition condition' hcondition => ?_
  refine (Steady.expect (by simp) _).bind fun _ _ _ => ?_
  refine (expressionUnless_steady _ hn hm).bind fun increment increment' hincrement => ?_
  refine (Steady.expect (by simp) _).bind fun _ _ _ => h.bind fun body body' hbody => ?_
  refine (Steady.note _ _).bind fun _ _ _ => .pure fun hs => ?_
  rw [hinitializer trivial,hcondition trivial,hincrement trivial,hbody hs]

theorem ifStatement_steady (h : Steady same moves k statement statement') (hn : k < n) (hm : k < m) :
    Steady same False k (ifStatement statement n) (ifStatement statement' m) := by
  cases k with
  | zero => exact .zero
  | succ k =>
    refine (Steady.expect (by simp) _).bind fun _ _ _ => ?_
    refine (expression_steady hn hm).bind fun condition condition' hcondition => ?_
    refine (Steady.expect (by simp) _).bind fun _ _ _ => h.bind fun thenBranch thenBranch' hthen => ?_
    refine .bind_take? (by simp) (.pure fun hs => ?_) fun _ _ => ?_
    · rw [hcondition trivial,hthen hs]
    · refine (h.mono (Nat.le_succ k)).bind fun elseBranch elseBranch' helse => .pure fun hs => ?_
      rw [hcondition trivial,hthen hs,helse hs]

theorem whileStatement_steady (h : Steady same moves k statement statement') (hn : k < n) (hm : k < m) :
    Steady same False k (whileStatement statement n) (whileStatement statement' m) := by
  refine (Steady.expect (by simp) _).bind fun _ _ _ => ?_
  refine (expression_steady hn hm).bind fun condition condition' hcondition => ?_
  refine (Steady.expect (by simp) _).bind fun _ _ _ => h.bind fun body body' hbody => .pure fun hs => ?_
  rw [hcondition trivial,hbody hs]

theorem returnStatement_steady (keyword : Token) (hn : k < n) (hm : k < m) :
    Steady True False k (returnStatement keyword n) (returnStatement keyword m) := by
  refine (expressionUnless_steady _ hn hm).bind fun value value' hvalue => ?_
  refine (Steady.expect (by simp) _).bind fun _ _ _ => .pure fun _ => ?_
  rw [hvalue trivial]

theorem printStatement_steady (hn : k < n) (hm : k < m) :
    Steady True False k (printStatement n) (printStatement m) := by
  refine (expression_steady hn hm).bind fun e e' he => ?_
  refine (Steady.expect (by simp) _).bind fun _ _ _ => .pure fun _ => ?_
  rw [he trivial]

/-- The rules for what is inside a statement are consulted only behind its first token. -/
theorem statement_steady (h : Steady same moves k statement statement') (hd : Steady same True k further further')
    (hn : k + 1 < n) (hm : k + 1 < m) :
    Steady same True (k + 1) (Parser.statement statement further n) (Parser.statement statement' further' m) := by
  have hn' : k < n := Nat.lt_of_succ_lt hn
  have hm' : k < m := Nat.lt_of_succ_lt hm
  refine .bind_take? (by simp) ((expressionStatement_steady hn hm).weaken (fun _ => trivial) id) fun t _ => ?_
  dsimp only
  split
  · exact forStatement_steady t h hn' hm'
  · exact ifStatement_steady h hn' hm'
  · exact whileStatement_steady h hn' hm'
  · exact (returnStatement_steady t hn' hm').weaken (fun _ => trivial) id
  · exact (block_steady hd (Nat.le_of_lt hn') (Nat.le_of_lt hm')).map
  · exact (printStatement_steady hn' hm').weaken (fun _ => trivial) id

end Statements

/-! ### Recovery -/

section Recovery

open Reader

variable {behind ts : List Token} {fault : SyntaxFault} {r s : Reader} {t : Token}

theorem boundary_append (h : Ended ts) (previous : Token) :
    boundary previous (ts ++ behind) = boundary previous ts ++ behind := by
  induction h generalizing previous with
  | mark ht => simp [boundary,Token.isEof,ht]
  | @cons t ts ht h ih =>
    simp only [List.cons_append,boundary]
    split
    · rfl
    · exact ih t

theorem boundary_split (h : Ended ts) (previous : Token) :
    ∃ us, ts = us ++ boundary previous ts ∧ Ended (boundary previous ts) := by
  induction h generalizing previous with
  | mark ht => exact ⟨[],by simp [boundary,Token.isEof,ht],by simpa [boundary,Token.isEof,ht] using .mark ht⟩
  | @cons t ts ht h ih =>
    simp only [boundary]
    split
    · exact ⟨[],rfl,.cons ht h⟩
    · obtain ⟨us,hsplit,hended⟩ := ih t
      exact ⟨t :: us,congrArg (t :: ·) hsplit,hended⟩

theorem recover_append (h : Ended ts) : recover (ts ++ behind) = recover ts ++ behind := by
  cases h with
  | mark ht => simp [recover,Token.isEof,ht]
  | cons ht h => simpa [recover,Token.isEof,ht] using boundary_append h _

/-- The end mark is never passed over, and any other token in the way is. -/
theorem recover_split (h : Ended ts) : ∃ us, ts = us ++ recover ts ∧ Ended (recover ts) ∧
    ∀ t rest, ts = t :: rest → t.kind ≠ .eof → ∃ vs, us = t :: vs := by
  cases h with
  | mark ht =>
    refine ⟨[],by simp [recover,Token.isEof,ht],by simpa [recover,Token.isEof,ht] using .mark ht,?_⟩
    rintro _ _ ⟨⟩ hne
    exact absurd ht hne
  | @cons t ts ht h =>
    obtain ⟨us,hsplit,hended⟩ := boundary_split h t
    have hrecover : recover (t :: ts) = boundary t ts := by simp [recover,Token.isEof,ht]
    rw [hrecover]
    refine ⟨t :: us,congrArg (t :: ·) hsplit,hended,?_⟩
    rintro _ _ ⟨⟩ -
    exact ⟨us,rfl⟩

/-- After an error the blamed token is passed over, so no later error blames it again. -/
theorem recovered {e : Error} (he : e = .syntactic fault r.next) (hpaired : Paired behind r s) (ev ev' : Event) :
    Together same True behind r s
      (.ok none { (r.note ev).record e with rest := recover r.rest } : EStateM.Result Error Reader (Option Stmt))
      (.ok none { (s.note ev').record e with rest := recover s.rest }) := by
  obtain ⟨us,hsplit,hended,hhead⟩ := recover_split hpaired.ended
  have hs : recover s.rest = recover r.rest ++ behind := hpaired.rest ▸ recover_append hpaired.ended
  obtain ⟨t,ts,hts⟩ := hpaired.ended.exists_cons
  have hnext : r.next = t := by simp [Reader.next,hts]
  have hblamed : (blamed [e]).Sublist us := by
    rw [he,hnext]
    by_cases ht : t.kind = .eof
    · rw [blamed_mark fault ht]
      exact List.nil_sublist us
    · obtain ⟨vs,rfl⟩ := hhead t ts hts ht
      exact (blamed_single fault t).trans (by simp)
  have hr' : Passes us [e] r { (r.note ev).record e with rest := recover r.rest } := ⟨hsplit,rfl⟩
  have hs' : Passes us [e] s { (s.note ev').record e with rest := recover s.rest } := by
    refine ⟨?_,rfl⟩
    change s.rest = us ++ recover s.rest
    rw [hs,← List.append_assoc,← hsplit]
    exact hpaired.rest
  refine .ok hr' hs' hblamed ⟨hended,hs,hpaired.allocated⟩ (fun _ ht => ?_) fun _ => rfl
  obtain ⟨vs,rfl⟩ := hhead t ts hts (hnext ▸ ht)
  exact List.cons_ne_nil _ _

theorem recovering_steady {p q : Parser Stmt} (h : Steady same True k p q) :
    Steady same True k (recovering p) (recovering q) := by
  intro behind r s hpaired hk
  simp only [recovering]
  generalize hx : p r = x, hy : q s = y
  have hxy := hx ▸ hy ▸ h hpaired hk
  cases hxy with
  | ok hr hs hblamed hpaired' hm hab =>
    exact .ok hr hs hblamed hpaired' hm fun hsame => congrArg some (hab hsame)
  | @error us new fault r' s' hr hs hblamed hpaired' hfatal =>
    refine (recovered rfl hpaired' _ _).after hr hs hblamed fun _ hnext hus => ⟨trivial,?_⟩
    have hrest : r.rest = r'.rest := by simpa [hus] using hr.rest
    simpa only [Reader.next,← hrest] using hnext

end Recovery

theorem declarationOf_steady {statement statement' : Parser Stmt} {further further' : Parser (Option Stmt)}
    (h : Steady same True (k + 1) statement statement') (hd : Steady same True k further further')
    (hn : k < n) (hm : k < m) :
    Steady same True (k + 1) (declarationOf statement further n) (declarationOf statement' further' m) := by
  refine Steady.peek.bind fun t t' _ => (Steady.note _ _).bind fun _ _ _ => ?_
  refine recovering_steady (.bind_take? (by simp) h fun t _ => ?_)
  dsimp only
  split
  · exact classDeclaration_steady hd (Nat.le_of_lt hn) (Nat.le_of_lt hm)
  · exact ((function_steady .function hd (Nat.le_of_lt hn) (Nat.le_of_lt hm)).map).weaken id False.elim
  · exact (varDeclaration_steady hn hm).weaken (fun _ => trivial) id

/-- The rules that the grammar goes round by are consulted only at later tokens: what they do at `k` tokens
settles what they do at one more. -/
theorem innerStatement_declaration_steady (hn : k < n) (hm : k < m) :
    Steady True True k (innerStatement n) (innerStatement m) ∧ Steady True True k (declaration n) (declaration m) := by
  induction k generalizing n m with
  | zero => exact ⟨.zero,.zero⟩
  | succ k ih =>
    obtain ⟨n,rfl⟩ := Nat.exists_eq_add_of_lt hn
    obtain ⟨m,rfl⟩ := Nat.exists_eq_add_of_lt hm
    obtain ⟨hinner,hfurther⟩ := ih (show k < k + 1 + n by omega) (show k < k + 1 + m by omega)
    have hstatement := statement_steady hinner hfurther hn hm
    exact ⟨hstatement,declarationOf_steady hstatement hfurther (by omega) (by omega)⟩

end Parser
end Lox

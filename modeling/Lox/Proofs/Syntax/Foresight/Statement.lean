import Lox.Proofs.Syntax.Foresight.Expression

/-! Statements and declarations stop at the first token that cannot come. -/
namespace Lox

namespace Relaxed

open Pattern

variable {K : Future} {t : Token} {z : List Token}

theorem exprStmt_begins (h : t :: z ∈ (rule .exprStmt).before K) : Grammar.startsExpression t.kind = true := by
  rw [rule_before,rules,both_before] at h
  exact expression_begins h

/-- The first token of a statement selects its rule. -/
theorem cons_mem_statement : t :: z ∈ (rule .statement).before K ↔
    t :: z ∈ (rule .exprStmt).before K ∨
    t.kind = .kwFor ∧ z ∈ (token .leftParen).before
      ((rule .varDecl ||| rule .exprStmt ||| token .semicolon).before ((optional (rule .expression)).before
        ((token .semicolon).before ((optional (rule .expression)).before ((token .rightParen).before
          ((rule .statement).before K)))))) ∨
    t.kind = .kwIf ∧ z ∈ (token .leftParen).before ((rule .expression).before ((token .rightParen).before
      ((rule .statement).before ((optional (token .kwElse ++ rule .statement)).before K)))) ∨
    t.kind = .kwPrint ∧ z ∈ (rule .expression).before ((token .semicolon).before K) ∨
    t.kind = .kwReturn ∧ z ∈ (optional (rule .expression)).before ((token .semicolon).before K) ∨
    t.kind = .kwWhile ∧ z ∈ (token .leftParen).before ((rule .expression).before ((token .rightParen).before
      ((rule .statement).before K))) ∨
    t.kind = .leftBrace ∧ z ∈ (many (rule .declaration)).before ((token .rightBrace).before K) := by
  rw [cons_mem_rule]
  simp only [rules,mem_either,cons_mem_rule .forStmt,cons_mem_rule .ifStmt,
    cons_mem_rule .printStmt,cons_mem_rule .returnStmt,
    cons_mem_rule .whileStmt,cons_mem_rule .block,both_before,cons_mem_token,or_assoc]

theorem cons_mem_declaration : t :: z ∈ (rule .declaration).before K ↔
    t.kind = .kwClass ∧ z ∈ (token .identifier).before ((optional (token .less ++ token .identifier)).before
      ((token .leftBrace).before ((many (rule .function)).before ((token .rightBrace).before K)))) ∨
    t.kind = .kwFun ∧ z ∈ (rule .function).before K ∨
    t.kind = .kwVar ∧ z ∈ (token .identifier).before ((optional (token .equal ++ rule .expression)).before
      ((token .semicolon).before K)) ∨
    t :: z ∈ (rule .statement).before K := by
  rw [cons_mem_rule]
  simp only [rules,mem_either,cons_mem_rule .classDecl,cons_mem_rule .funDecl,
    cons_mem_rule .varDecl,both_before,cons_mem_token,or_assoc]

theorem statement_begins (h : t :: z ∈ (rule .statement).before K) : Grammar.opensStatement t.kind = true := by
  rcases cons_mem_statement.mp h with h | ⟨ht,-⟩ | ⟨ht,-⟩ | ⟨ht,-⟩ | ⟨ht,-⟩ | ⟨ht,-⟩ | ⟨ht,-⟩
  · exact Grammar.opensStatement_of_expression (exprStmt_begins h)
  all_goals
    rw [ht]
    rfl

theorem declaration_begins (h : t :: z ∈ (rule .declaration).before K) :
    Grammar.opensDeclaration t.kind = true := by
  rcases cons_mem_declaration.mp h with ⟨ht,-⟩ | ⟨ht,-⟩ | ⟨ht,-⟩ | h
  · rw [ht]
    rfl
  · rw [ht]
    rfl
  · rw [ht]
    rfl
  · exact Grammar.opensDeclaration_of_statement (statement_begins h)

theorem declaration_avoids : ((rule .declaration).before K).Avoids [.rightBrace,.eof,.kwElse] := by
  intro t z hz ht
  have hopens := declaration_begins hz
  rw [Grammar.not_opensDeclaration ht] at hopens
  cases hopens

/-- An `else` that may come can be taken by an `if` that has just ended. -/
def Future.TakesElse (K : Future) : Prop :=
  ∀ t z, t.kind = .kwElse → t :: z ∈ K → z ∈ (rule .statement).before K

theorem Future.TakesElse.of_avoids (h : K.Avoids [.kwElse]) : K.TakesElse :=
  fun t z ht hz => absurd (by simpa using ht) (h t z hz)

/-- The `else` of an outer `if` may be taken by an inner one. -/
theorem Future.TakesElse.branch (h : K.TakesElse) :
    ((optional (token .kwElse ++ rule .statement)).before K).TakesElse := by
  intro t z ht hz
  have hother : z ∈ (rule .statement).before K := by
    rw [mem_optional,both_before,cons_mem_token] at hz
    exact hz.elim (·.2) (h t z ht)
  exact before_mono (fun w hw => mem_optional.mpr (.inr hw)) hother

end Relaxed

namespace Parser

open Relaxed Pattern

variable {α : Type} {F G K N : Future} {k n : Nat} {p : Parser α} {t : Token} {ts : List Token}

/-- The rule for a statement, on at most `k` tokens. -/
def ForeseesStatement (k : Nat) (statement : Parser Stmt) : Prop :=
  ∀ K : Future, K.TakesElse → Foresees k ((rule .statement).before K) K statement

/-- The rule for a declaration, on at most `k` tokens. -/
def ForeseesDeclaration (k : Nat) (declaration : Parser (Option Stmt)) : Prop :=
  ∀ K : Future, K.TakesElse → Foresees k ((rule .declaration).before K) K declaration

/-! ### Lists -/

/-- Each round of the loop moves, so that its budget is not used up. -/
theorem manyUntil_foresees {same : Prop} {item : Parser (Option α)} {closing : List Kind} {P : Pattern}
    (hclosing : Kind.eof ∈ closing) (hs : Steady same True k item item)
    (h : Foresees k (P.before ((many P).before K)) ((many P).before K) item)
    (hP : ∀ (K : Future) t z, t :: z ∈ P.before K → t.kind ∉ closing) (hK : K.BeginsWith closing) (hn : k ≤ n) :
    Foresees k ((many P).before K) K (manyUntil closing item n) := by
  induction n generalizing k with
  | zero =>
    obtain rfl := Nat.le_zero.mp hn
    exact .zero (.pure [])
  | succ n ih =>
    have hlater : Foresees (k - 1) ((many P).before K) K (manyUntil closing item n) :=
      ih (hs.mono (Nat.sub_le k 1)) (h.mono (Nat.sub_le k 1)) (Nat.sub_le_of_le_add hn)
    have hrounds (x : Option α) : Keeps (manyUntil closing item n >>= fun xs => (pure (x.toList ++ xs) : Parser _)) :=
      hlater.keeps.bind fun _ => .pure _
    refine ⟨Keeps.peek.bind fun t => .ite (.pure []) (h.keeps.bind hrounds),fun r hended hk hclean => ?_⟩
    obtain ⟨t,ts,hts⟩ := hended.exists_cons
    have hnext : r.next = t := by simp [Reader.next,hts]
    rw [hts]
    refine .bind_peek hts ?_
    by_cases ht : t.kind ∈ closing
    · rw [if_pos ht]
      have hnone : Foresees k K K (pure [] : Parser (List α)) := .pure []
      have hdone := hnone.sees hended hk hclean
      rw [hts] at hdone
      refine hdone.narrow (fun z hz => mem_many.mpr (.inr hz)) fun z hz => ?_
      exact (mem_many.mp hz).resolve_left fun hz => hP _ t z hz ht
    · rw [if_neg ht]
      have hround := h.sees hended hk hclean
      have hne : r.next.kind ≠ .eof := fun heof => ht (hnext ▸ heof ▸ hclosing)
      have hmore := hround.bind hrounds fun x r' hx hended' _ hclean' => by
        have hshort := (hs.shorter hended hk hne hx).1
        exact (hlater.bind fun xs => .pure _).sees hended' (by omega) hclean'
      rw [hts] at hmore
      refine hmore.narrow (fun z hz => mem_many.mpr (.inl hz)) fun z hz => ?_
      exact (mem_many.mp hz).resolve_right fun hz => ht (hK t z hz)

/-! ### Statements -/

section Statements

variable {same : Prop} {statement : Parser Stmt} {further : Parser (Option Stmt)}

theorem token_begins {kind : Kind} : ((token kind).before K).BeginsWith [kind] :=
  fun t z hz => by simpa using (cons_mem_token.mp hz).1

/-- No declaration begins with `else`, so that the ones in front of it do not take it. -/
theorem declarations_foresees {closing : List Kind} (heof : Kind.eof ∈ closing)
    (hclosing : closing ⊆ [.rightBrace,.eof]) (h : ForeseesDeclaration k further)
    (hs : Steady same True k further further) (hK : K.BeginsWith closing) (hn : k ≤ n) :
    Foresees k ((many (rule .declaration)).before K) K (manyUntil closing further n) := by
  have helse : K.Avoids [.kwElse] := by
    intro t z hz ht
    have hmem := hclosing (hK t z hz)
    rw [List.mem_singleton.mp ht] at hmem
    simp at hmem
  have hmany : ((many (rule .declaration)).before K).Avoids [.kwElse] :=
    .many (declaration_avoids.mono (by simp)) helse
  refine manyUntil_foresees heof hs (h _ (.of_avoids hmany)) (fun K t z hz ht => ?_) hK hn
  exact declaration_avoids t z hz (List.mem_append_left [Kind.kwElse] (hclosing ht))

theorem block_foresees (h : ForeseesDeclaration k further) (hs : Steady same True k further further) (hn : k ≤ n) :
    Foresees k ((many (rule .declaration)).before ((token .rightBrace).before K)) K (block further n) := by
  have hbegins : ((token .rightBrace).before K).BeginsWith [.rightBrace,.eof] :=
    fun t z hz => by simp [(cons_mem_token.mp hz).1]
  exact (declarations_foresees (by simp) (fun _ ht => ht) h hs hbegins hn).bind fun body =>
    (Foresees.expect (by simp) _).bind fun _ => .pure _

theorem function_foresees (kind : FunctionKind) (h : ForeseesDeclaration k further)
    (hs : Steady same True k further further) (hn : k ≤ n) :
    Foresees k ((rule .function).before K) K (function kind further n) := by
  rw [rule_before,rules]
  simp only [both_before]
  rw [rule_before .block,rules]
  simp only [both_before]
  have hitem (K : Future) (_ : K.Avoids []) :
      Foresees k ((token .identifier).before K) K (expect .identifier .parameterName) := Foresees.expect (by simp) _
  refine (Foresees.expect (by simp) _).bind fun name => (Foresees.expect (by simp) _).bind fun _ => ?_
  refine (listed_foresees rfl rfl hitem (by simp) (by simp) (fun K t z hz => ?_) token_begins hn).bind fun ps => ?_
  · rw [(cons_mem_token.mp hz).1]
    simp
  · exact (Foresees.expect (by simp) _).bind fun _ => (Foresees.expect (by simp) _).bind fun _ =>
      (block_foresees h hs hn).bind fun body => .pure _

theorem superclassClause_foresees (hK : K.Avoids [.less]) :
    Foresees k ((optional (token .less ++ token .identifier)).before K) K superclassClause := by
  refine .bind_take? (by simp) (.pure _) (fun z hz => mem_optional.mpr (.inr hz)) (fun t z ht hz => ?_) fun t ht => ?_
  · simp only [mem_optional,both_before,cons_mem_token] at hz
    exact hz.resolve_left fun hless => ht (by simp [hless.1])
  · refine ⟨_,fun z => ?_,(Foresees.expect (by simp) _).bind fun parent => Foresees.freshId.bind fun _ => .pure _⟩
    have havoid : t :: z ∉ K := fun hz => hK t z hz ht
    have hkind : t.kind = .less := by simpa using ht
    simp [hkind,havoid]

theorem classDeclaration_foresees (h : ForeseesDeclaration k further) (hs : Steady same True k further further)
    (hn : k ≤ n) : Foresees k ((token .identifier).before ((optional (token .less ++ token .identifier)).before
      ((token .leftBrace).before ((many (rule .function)).before ((token .rightBrace).before K))))) K
      (classDeclaration further n) := by
  refine (Foresees.expect (by simp) _).bind fun name => ?_
  refine (superclassClause_foresees (.token (by decide))).bind fun superclass => ?_
  refine (Foresees.expect (by simp) _).bind fun _ => ?_
  have hmethod : Steady same True k (some <$> function .method further n) (some <$> function .method further n) :=
    (function_steady .method hs hn hn).map
  refine (manyUntil_foresees (by simp) hmethod
    (function_foresees .method h hs hn).map (fun K t z hz => ?_) (fun t z hz => ?_) hn).bind fun methods => ?_
  · rw [rule_before,rules] at hz
    simp only [both_before,cons_mem_token] at hz
    simp [hz.1]
  · simp [(cons_mem_token.mp hz).1]
  · exact (Foresees.expect (by simp) _).bind fun _ => (Foresees.note _).bind fun _ => .pure _

theorem expressionUnless_foresees {kind : Kind} (hkind : Grammar.startsExpression kind = false)
    (hjoins : kind ∉ expressionJoins) (hn : k ≤ n - 1) : Foresees k
      ((optional (rule .expression)).before ((token kind).before K)) ((token kind).before K)
      (expressionUnless kind n) := by
  refine unless_foresees ((expression_foresees hn _ (.token hjoins)).map) (fun t z hz ht => ?_) token_begins none
  have hbegins := expression_begins hz
  rw [ht,hkind] at hbegins
  cases hbegins

theorem initialValue_foresees (hn : k ≤ n - 1) (hK : K.Avoids expressionJoins) :
    Foresees k ((optional (token .equal ++ rule .expression)).before K) K (initialValue n) := by
  refine .bind_take? (by simp) (.pure _) (fun z hz => mem_optional.mpr (.inr hz)) (fun t z ht hz => ?_) fun t ht => ?_
  · simp only [mem_optional,both_before,cons_mem_token] at hz
    exact hz.resolve_left fun hequal => ht (by simp [hequal.1])
  · refine ⟨_,fun z => ?_,((expression_foresees hn K hK).mono (Nat.sub_le k 1)).map⟩
    have havoid : t :: z ∉ K := fun hz => hK t z hz (List.mem_append_left _ ht)
    have hkind : t.kind = .equal := by simpa using ht
    simp [hkind,havoid]

theorem varDeclaration_foresees (hn : k ≤ n - 1) :
    Foresees k ((token .identifier).before ((optional (token .equal ++ rule .expression)).before
      ((token .semicolon).before K))) K (varDeclaration n) :=
  (Foresees.expect (by simp) _).bind fun name => (initialValue_foresees hn (.token (by decide))).bind fun initializer =>
    (Foresees.expect (by simp) _).bind fun _ => .pure _

/-- An expression and its semicolon. -/
theorem ended_foresees {what : Expectation} {β : Type} {f : Expr → β} (hn : k ≤ n - 1) :
    Foresees k ((rule .expression).before ((token .semicolon).before K)) K (do
      let e ← expression n
      let _ ← expect .semicolon what
      return f e) :=
  (expression_foresees hn _ (.token (by decide))).bind fun e => (Foresees.expect (by simp) _).bind fun _ => .pure _

theorem expressionStatement_foresees (hn : k ≤ n - 1) :
    Foresees k ((rule .exprStmt).before K) K (expressionStatement n) := by
  rw [rule_before,rules,both_before]
  exact ended_foresees hn

theorem forInitializer_foresees (hn : k ≤ n - 1) :
    Foresees k ((rule .varDecl ||| rule .exprStmt ||| token .semicolon).before K) K (forInitializer n) := by
  have hmem {t : Token} {z : List Token} :
      t :: z ∈ (rule .varDecl ||| rule .exprStmt ||| token .semicolon).before K ↔
        (t.kind = .kwVar ∧ z ∈ (token .identifier).before ((optional (token .equal ++ rule .expression)).before
          ((token .semicolon).before K)) ∨ t :: z ∈ (rule .exprStmt).before K) ∨ t.kind = .semicolon ∧ z ∈ K := by
    simp only [mem_either,cons_mem_rule .varDecl,rules,both_before,cons_mem_token]
  refine .bind_take? (by simp) (expressionStatement_foresees hn).map (fun z hz => ?_) (fun t z ht hz => ?_) fun t ht => ?_
  · simp [hz]
  · rcases hmem.mp hz with (⟨hvar,-⟩ | hz) | ⟨hsemicolon,-⟩
    · simp [hvar] at ht
    · exact hz
    · simp [hsemicolon] at ht
  · have hnot {z : List Token} : t :: z ∉ (rule .exprStmt).before K := fun hz => by
      have hbegins := exprStmt_begins hz
      simp only [List.mem_cons,List.not_mem_nil,or_false] at ht
      rcases ht with ht | ht <;> rw [ht] at hbegins <;> cases hbegins
    dsimp only
    split
    next hsemicolon => exact ⟨K,fun z => by simp [hmem,hsemicolon,hnot],.pure _⟩
    next hsemicolon =>
      have hvar : t.kind = .kwVar := by simpa [hsemicolon] using ht
      exact ⟨_,fun z => by simp [hmem,hvar,hnot],((varDeclaration_foresees hn).mono (Nat.sub_le k 1)).map⟩

theorem forStatement_foresees (keyword : Token) (h : ForeseesStatement k statement) (hn : k ≤ n - 1)
    (hK : K.TakesElse) : Foresees k ((token .leftParen).before
      ((rule .varDecl ||| rule .exprStmt ||| token .semicolon).before ((optional (rule .expression)).before
        ((token .semicolon).before ((optional (rule .expression)).before ((token .rightParen).before
          ((rule .statement).before K))))))) K (forStatement keyword statement n) := by
  refine (Foresees.expect (by simp) _).bind fun _ => (forInitializer_foresees hn).bind fun initializer => ?_
  refine (expressionUnless_foresees rfl (by decide) hn).bind fun condition => ?_
  refine (Foresees.expect (by simp) _).bind fun _ => ?_
  refine (expressionUnless_foresees rfl (by decide) hn).bind fun increment => ?_
  exact (Foresees.expect (by simp) _).bind fun _ => (h K hK).bind fun body => (Foresees.note _).bind fun _ => .pure _

theorem ifStatement_foresees (h : ForeseesStatement k statement) (hn : k ≤ n - 1) (hK : K.TakesElse) :
    Foresees k ((token .leftParen).before ((rule .expression).before ((token .rightParen).before
      ((rule .statement).before ((optional (token .kwElse ++ rule .statement)).before K))))) K
      (ifStatement statement n) := by
  refine (Foresees.expect (by simp) _).bind fun _ => ?_
  refine (expression_foresees hn _ (.token (by decide))).bind fun condition => ?_
  refine (Foresees.expect (by simp) _).bind fun _ => (h _ hK.branch).bind fun thenBranch => ?_
  refine .bind_take? (by simp) (.pure _) (fun z hz => mem_optional.mpr (.inr hz)) (fun t z ht hz => ?_) fun t ht => ?_
  · simp only [mem_optional,both_before,cons_mem_token] at hz
    exact hz.resolve_left fun hother => ht (by simp [hother.1])
  · have hkind : t.kind = .kwElse := by simpa using ht
    refine ⟨_,fun z => ?_,((h K hK).mono (Nat.sub_le k 1)).bind fun elseBranch => .pure _⟩
    simp only [mem_optional,both_before,cons_mem_token,hkind,true_and]
    exact ⟨.inl,fun hz => hz.elim id (hK t z hkind)⟩

theorem whileStatement_foresees (h : ForeseesStatement k statement) (hn : k ≤ n - 1) (hK : K.TakesElse) :
    Foresees k ((token .leftParen).before ((rule .expression).before ((token .rightParen).before
      ((rule .statement).before K)))) K (whileStatement statement n) := by
  refine (Foresees.expect (by simp) _).bind fun _ => ?_
  refine (expression_foresees hn _ (.token (by decide))).bind fun condition => ?_
  exact (Foresees.expect (by simp) _).bind fun _ => (h K hK).bind fun body => .pure _

theorem returnStatement_foresees (keyword : Token) (hn : k ≤ n - 1) :
    Foresees k ((optional (rule .expression)).before ((token .semicolon).before K)) K (returnStatement keyword n) :=
  (expressionUnless_foresees rfl (by decide) hn).bind fun value => (Foresees.expect (by simp) _).bind fun _ => .pure _

theorem statement_foresees (h : ForeseesStatement (k - 1) statement) (hd : ForeseesDeclaration (k - 1) further)
    (hs : Steady same True (k - 1) further further) (hn : k ≤ n - 1) :
    ForeseesStatement k (Parser.statement statement further n) := by
  intro K hK
  have hn' : k - 1 ≤ n - 1 := Nat.le_trans (Nat.sub_le k 1) hn
  have hrounds : k - 1 ≤ n := Nat.le_trans hn' (Nat.sub_le n 1)
  refine .bind_take? (by simp) (expressionStatement_foresees hn) (fun z hz => ?_) (fun t z ht hz => ?_) fun t ht => ?_
  · rw [rule_before]
    simp [rules,hz]
  · simp only [List.mem_cons,List.not_mem_nil,or_false,not_or] at ht
    obtain ⟨hfor,hif,hwhile,hreturn,hbrace,hprint⟩ := ht
    simpa [cons_mem_statement,hfor,hif,hwhile,hreturn,hbrace,hprint] using hz
  · have hnot {z : List Token} : t :: z ∉ (rule .exprStmt).before K := fun hz => by
      have hbegins := exprStmt_begins hz
      simp only [List.mem_cons,List.not_mem_nil,or_false] at ht
      rcases ht with ht | ht | ht | ht | ht | ht <;> rw [ht] at hbegins <;> cases hbegins
    simp only [List.mem_cons,List.not_mem_nil,or_false] at ht
    rcases ht with ht | ht | ht | ht | ht | ht <;> simp only [ht]
    · exact ⟨_,fun z => by simp [cons_mem_statement,ht,hnot],forStatement_foresees t h hn' hK⟩
    · exact ⟨_,fun z => by simp [cons_mem_statement,ht,hnot],ifStatement_foresees h hn' hK⟩
    · exact ⟨_,fun z => by simp [cons_mem_statement,ht,hnot],whileStatement_foresees h hn' hK⟩
    · exact ⟨_,fun z => by simp [cons_mem_statement,ht,hnot],returnStatement_foresees t hn'⟩
    · exact ⟨_,fun z => by simp [cons_mem_statement,ht,hnot],(block_foresees hd hs hrounds).map⟩
    · exact ⟨_,fun z => by simp [cons_mem_statement,ht,hnot],ended_foresees hn'⟩

/-! ### Declarations -/

/-- An error that is recorded is found like one that is raised. -/
theorem recovering_foresees {p : Parser Stmt} (h : Foresees k F K p) : Foresees k F K (recovering p) := by
  refine ⟨.recovering h.keeps,fun r hended hk hclean => ?_⟩
  have hfound := found_recovering p r
  have hp := h.sees hended hk hclean
  simp only [recovering] at hfound ⊢
  generalize p r = x at hp hfound
  cases hp with
  | clear us hsplit hended' hclean' hK hF => exact .clear us hsplit hended' hclean' hK hF
  | stuck us hsplit hfirst hpossible himpossible => exact .stuck us hsplit (hfound ▸ hfirst) hpossible himpossible

theorem declarationOf_foresees (h : ForeseesStatement k statement) (hd : ForeseesDeclaration (k - 1) further)
    (hs : Steady same True (k - 1) further further) (hn : k ≤ n - 1) :
    ForeseesDeclaration k (declarationOf statement further n) := by
  intro K hK
  have hn' : k - 1 ≤ n - 1 := Nat.le_trans (Nat.sub_le k 1) hn
  have hrounds : k - 1 ≤ n := Nat.le_trans hn' (Nat.sub_le n 1)
  refine Foresees.peek.bind fun t => (Foresees.note _).bind fun _ => recovering_foresees ?_
  refine .bind_take? (by simp) (h K hK) (fun z hz => ?_) (fun t z ht hz => ?_) fun t ht => ?_
  · rw [rule_before]
    simp [rules,hz]
  · simp only [List.mem_cons,List.not_mem_nil,or_false,not_or] at ht
    obtain ⟨hclass,hfun,hvar⟩ := ht
    simpa [cons_mem_declaration,hclass,hfun,hvar] using hz
  · have hnot {z : List Token} : t :: z ∉ (rule .statement).before K := fun hz => by
      have hbegins := statement_begins hz
      simp only [List.mem_cons,List.not_mem_nil,or_false] at ht
      rcases ht with ht | ht | ht <;> rw [ht] at hbegins <;> cases hbegins
    simp only [List.mem_cons,List.not_mem_nil,or_false] at ht
    rcases ht with ht | ht | ht <;> simp only [ht]
    · exact ⟨_,fun z => by simp [cons_mem_declaration,ht,hnot],classDeclaration_foresees hd hs hrounds⟩
    · exact ⟨_,fun z => by simp [cons_mem_declaration,ht,hnot],(function_foresees .function hd hs hrounds).map⟩
    · exact ⟨_,fun z => by simp [cons_mem_declaration,ht,hnot],varDeclaration_foresees hn'⟩

theorem innerStatement_declaration_foresees (hn : k ≤ n - 1) :
    ForeseesStatement k (innerStatement n) ∧ ForeseesDeclaration k (declaration n) := by
  induction n generalizing k with
  | zero =>
    obtain rfl := Nat.le_zero.mp hn
    exact ⟨fun K _ => .zero (.fail _),fun K _ => .zero (.recovering (.fail _))⟩
  | succ n ih =>
    obtain ⟨hinner,hfurther⟩ := ih (show k - 1 ≤ n - 1 from Nat.sub_le_sub_right hn 1)
    have hs : Steady True True (k - 1) (declaration n) (declaration n) := by
      rcases Nat.eq_zero_or_pos (k - 1) with hzero | hpos
      · rw [hzero]
        exact .zero
      · have hlt : k - 1 < n := by omega
        exact (innerStatement_declaration_steady hlt hlt).2
    have hstatement := statement_foresees hinner hfurther hs hn
    exact ⟨hstatement,declarationOf_foresees hstatement hfurther hs hn⟩

end Statements
end Parser
end Lox

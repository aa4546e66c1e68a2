import Lox.Proofs.Syntax.Soundness.Expression

/-! A token list that is parsed without an error is a program of the grammar, and its tree is the one
returned. -/
namespace Lox
namespace Parser

open Grammar

/-! ### Clauses -/

theorem expressionUnless_sound (kind : Kind) (n : Nat) :
    Sound (expressionUnless kind n) fun i ts e j _ => OptionalExpression i ts e j := by
  refine .bind_peek fun t => ?_
  split
  next => exact .pure fun _ _ _ => .absent
  next => exact .map ((expression_sound n).weaken fun i ts e j _ he _ => .present he)

theorem superclassClause_sound : Sound superclassClause fun i ts e j _ => Superclass i ts e j := by
  refine .bind_take? (by simp) (.pure fun i rest _ => .absent) fun less hless => ?_
  refine .bind_expect (by simp) fun parent hparent => .bind_freshId fun i => .pure fun j rest hj => ?_
  subst hj
  exact .present (by simpa using hless) hparent

theorem varDeclaration_sound (n : Nat) : Sound (varDeclaration n) fun i ts s j _ =>
    ∀ keyword, keyword.kind = .kwVar → VariableDeclaration i (keyword :: ts) s j := by
  have hvalue : Sound (initialValue n) fun i ts e j _ => e = none ∧ ts = [] ∧ i = j ∨
      ∃ equals us v, e = some v ∧ ts = equals :: us ∧ equals.kind = .equal ∧
        Expression .assignment i us v j := by
    refine .bind_take? (by simp) (.pure fun i rest _ => .inl ⟨rfl,rfl,rfl⟩) fun equals heq => ?_
    refine .map ((expression_sound n).weaken fun i us v j _ hv => .inr ?_)
    exact ⟨equals,us,v,rfl,rfl,by simpa using heq,hv⟩
  refine .bind_expect (by simp) fun name hname => hvalue.bind fun e => ?_
  refine .bind_expect (by simp) fun semicolon hsemi => .pure ?_
  rintro j rest i us (⟨rfl,rfl,rfl⟩ | ⟨equals,vs,v,rfl,rfl,heq,hv⟩) keyword hk
  · exact .plain hk hname hsemi
  · simpa using VariableDeclaration.initialized hk hname heq hv hsemi

theorem expressionStatement_sound (n : Nat) :
    Sound (expressionStatement n) fun i ts s j _ => ExpressionStatement i ts s j := by
  refine (expression_sound n).bind fun e => .bind_expect (by simp) fun semicolon hsemi => .pure ?_
  exact fun j rest i us he => .mk he hsemi

theorem forInitializer_sound (n : Nat) :
    Sound (forInitializer n) fun i ts s j _ => Initializer i ts s j := by
  refine .bind_take? (by simp) ?_ fun t ht => ?_
  · exact .map ((expressionStatement_sound n).weaken fun i ts s j _ hs _ => .expression hs)
  · dsimp only
    split
    next hk => exact .pure fun i rest => .absent hk
    next hk =>
      have hvar : t.kind = .kwVar := by simpa [hk] using ht
      exact .map ((varDeclaration_sound n).weaken fun i ts s j _ hs => .variable (hs t hvar))

/-! ### Statements and declarations -/

/-- A statement and whether it could go on with an `else`, which then does not follow. -/
def statementPhrase : Phrases Stmt := fun i ts s j rest =>
  ∃ isOpen, Statement isOpen i ts s j ∧ (isOpen → upcoming rest ≠ .kwElse)

def declarationPhrase : Phrases (Option Stmt) := fun i ts found j _ =>
  ∃ s, found = some s ∧ Grammar.Declaration i ts s j

variable {inner : Parser Stmt} {further : Parser (Option Stmt)} {n : Nat} {keyword : Token}

/-- Items are read until a closing token comes or their number is reached. -/
theorem manyUntil_sound {α : Type} {item : Parser (Option α)} {P : Nat → List Token → α → Nat → Prop}
    {Q : Nat → List Token → List α → Nat → Prop}
    (h : Sound item fun i ts found j _ => ∃ x, found = some x ∧ P i ts x j)
    (hnil : ∀ {i}, Q i [] [] i)
    (hcons : ∀ {i ts x j us xs k}, P i ts x j → Q j us xs k → Q i (ts ++ us) (x :: xs) k)
    (closing : List Kind) (n : Nat) : Sound (manyUntil closing item n) fun i ts xs j rest =>
      Q i ts xs j ∧ (upcoming rest ∈ closing ∨ n ≤ xs.length) := by
  induction n with
  | zero => exact .pure fun i rest => ⟨hnil,.inr (Nat.le_refl _)⟩
  | succ n ih =>
    refine .bind_peek fun t => ?_
    split
    next ht =>
      refine .pure fun i rest hrest => ⟨hnil,.inl ?_⟩
      subst hrest
      exact ht
    next =>
      refine h.bind fun found => ih.bind fun xs => .pure ?_
      rintro k rest j us ⟨hxs,hend⟩ i ts ⟨x,rfl,hx⟩ -
      refine ⟨by simpa using hcons hx hxs,?_⟩
      simpa using hend

theorem block_sound (h : Sound further declarationPhrase) (n : Nat) :
    Sound (block further n) fun i ts body j _ =>
      ∀ opening, opening.kind = .leftBrace → Block i (opening :: ts) body j := by
  refine (manyUntil_sound h Declarations.none .more _ n).bind fun body => ?_
  refine .bind_expect (by simp) fun closing hclose => .pure ?_
  exact fun j rest i us hbody opening hopen => .mk hopen hbody.1 hclose

theorem function_sound (h : Sound further declarationPhrase) (kind : FunctionKind) (n : Nat) :
    Sound (function kind further n) fun i ts d j _ => Grammar.Function i ts d j := by
  have hparameters : Sound (listed (expect .identifier .parameterName) .tooManyParameters n)
      fun i ts names j _ => (i = j ∧ Parameters ts names) ∧ names.length ≤ maxArguments := by
    refine listed_sound (P := fun i ts name j => i = j ∧ ts = [name] ∧ name.kind = .identifier)
      (.expect (by simp) fun i t rest ht => ⟨rfl,rfl,ht⟩) ⟨rfl,.none⟩ ?_ ?_ n
    · rintro i ts name j ⟨rfl,rfl,hname⟩
      exact ⟨rfl,.one hname⟩
    · rintro i ts name j comma us names k ⟨rfl,rfl,hname⟩ hcomma ⟨rfl,hnames⟩ hne
      exact ⟨rfl,.more hname hcomma hnames hne⟩
  refine .bind_expect (by simp) fun name hname => .bind_expect (by simp) fun opening hopen => ?_
  refine hparameters.bind fun names => .bind_expect (by simp) fun closing hclose => ?_
  refine .bind_expect (by simp) fun brace hbrace => (block_sound h n).bind fun body => .pure ?_
  rintro k rest j us hbody i ts ⟨⟨rfl,hnames⟩,hlimit⟩
  simpa using Grammar.Function.mk hname hopen hnames hlimit hclose (hbody brace hbrace)

theorem classDeclaration_sound (h : Sound further declarationPhrase) (hk : keyword.kind = .kwClass)
    (n : Nat) : Sound (classDeclaration further n) fun i ts s j _ =>
      Grammar.Declaration i (keyword :: ts) s j := by
  have hmethod : Sound (some <$> function .method further n) fun i ts found j _ =>
      ∃ d, found = some d ∧ Grammar.Function i ts d j :=
    .map ((function_sound h .method n).weaken fun i ts d j _ hd => ⟨d,rfl,hd⟩)
  refine .bind_expect (by simp) fun name hname => superclassClause_sound.bind fun superclass => ?_
  refine .bind_expect (by simp) fun opening hopen => ?_
  refine (manyUntil_sound hmethod Functions.none .more _ n).bind fun methods => ?_
  refine .bind_expect (by simp) fun closing hclose => .bind_note (.pure ?_)
  intro k rest j us hmethods i ts hsuper
  simpa using Declaration.class hk hname hsuper hopen hmethods.1 hclose

theorem printStatement_sound (hk : keyword.kind = .kwPrint) (n : Nat) :
    Sound (printStatement n) fun i ts s j rest => statementPhrase i (keyword :: ts) s j rest := by
  refine (expression_sound n).bind fun e => .bind_expect (by simp) fun semicolon hsemi => .pure ?_
  exact fun j rest i us he => ⟨false,.print hk he hsemi,by simp⟩

theorem returnStatement_sound (hk : keyword.kind = .kwReturn) (n : Nat) :
    Sound (returnStatement keyword n) fun i ts s j rest =>
      statementPhrase i (keyword :: ts) s j rest := by
  refine (expressionUnless_sound _ n).bind fun e => .bind_expect (by simp) fun semicolon hsemi => .pure ?_
  exact fun j rest i us he => ⟨false,.return hk he hsemi,by simp⟩

theorem whileStatement_sound (h : Sound inner statementPhrase) (hk : keyword.kind = .kwWhile) (n : Nat) :
    Sound (whileStatement inner n) fun i ts s j rest => statementPhrase i (keyword :: ts) s j rest := by
  refine .bind_expect (by simp) fun opening hopen => (expression_sound n).bind fun condition => ?_
  refine .bind_expect (by simp) fun closing hclose => h.bind fun body => .pure ?_
  rintro k rest j us ⟨isOpen,hbody,hnext⟩ i ts hc
  exact ⟨isOpen,by simpa using Statement.while hk hopen hc hclose hbody,by simpa using hnext⟩

theorem ifStatement_sound (h : Sound inner statementPhrase) (hk : keyword.kind = .kwIf) (n : Nat) :
    Sound (ifStatement inner n) fun i ts s j rest => statementPhrase i (keyword :: ts) s j rest := by
  refine .bind_expect (by simp) fun opening hopen => (expression_sound n).bind fun condition => ?_
  refine .bind_expect (by simp) fun closing hclose => h.bind fun thenBranch => ?_
  refine .bind_take? (by simp) (.pure ?_) fun other hother => h.bind fun elseBranch => .pure ?_
  · rintro k rest hnext j us ⟨isOpen,hthen,-⟩ i ts hc
    refine ⟨true,by simpa using Statement.ifThen hk hopen hc hclose hthen,fun _ => ?_⟩
    simpa using hnext
  · rintro l rest k vs ⟨isOpen,helse,hnext⟩ j us ⟨thenOpen,hthen,hclosed⟩ i ts hc
    have hother : other.kind = .kwElse := by simpa using hother
    -- An open branch would have taken the `else`.
    obtain rfl : thenOpen = false := by simpa [hother] using hclosed
    refine ⟨isOpen,?_,by simpa using hnext⟩
    simpa using Statement.ifElse hk hopen hc hclose hthen hother helse

theorem forStatement_sound (h : Sound inner statementPhrase) (hk : keyword.kind = .kwFor) (n : Nat) :
    Sound (forStatement keyword inner n) fun i ts s j rest =>
      statementPhrase i (keyword :: ts) s j rest := by
  refine .bind_expect (by simp) fun opening hopen => (forInitializer_sound n).bind fun initializer => ?_
  refine (expressionUnless_sound _ n).bind fun condition => ?_
  refine .bind_expect (by simp) fun semicolon hsemi => ?_
  refine (expressionUnless_sound _ n).bind fun increment => ?_
  refine .bind_expect (by simp) fun closing hclose => h.bind fun body => .bind_note (.pure ?_)
  rintro m rest l ws ⟨isOpen,hbody,hnext⟩ k vs hincrement j us hcondition i ts hinitializer
  refine ⟨isOpen,?_,by simpa using hnext⟩
  have hfor := Statement.for hk hopen hinitializer hcondition hsemi hincrement hclose hbody
  simpa [desugared_eq_forLoop] using hfor

theorem statement_sound (h : Sound inner statementPhrase) (hd : Sound further declarationPhrase) (n : Nat) :
    Sound (statement inner further n) statementPhrase := by
  refine .bind_take? (by simp) ?_ fun t ht => ?_
  · exact (expressionStatement_sound n).weaken fun i ts s j _ hs _ => ⟨false,.expression hs,by simp⟩
  · dsimp only
    split
    next hk => exact forStatement_sound h hk n
    next hk => exact ifStatement_sound h hk n
    next hk => exact whileStatement_sound h hk n
    next hk => exact returnStatement_sound hk n
    next hk =>
      refine .map ((block_sound hd n).weaken fun i ts body j _ hbody => ?_)
      exact ⟨false,.block (hbody t hk),by simp⟩
    next => exact printStatement_sound (by simp_all) n

theorem declarationOf_sound {p : Parser Stmt} (h : Sound p statementPhrase)
    (hd : Sound further declarationPhrase) (n : Nat) :
    Sound (declarationOf p further n) declarationPhrase := by
  refine .bind_peek fun t => .bind_note ((recovering_sound (L := fun i ts s j _ =>
    Grammar.Declaration i ts s j) ?_).weaken fun i ts found j _ hs _ => hs)
  refine .bind_take? (by simp) ?_ fun t ht => ?_
  · refine h.weaken ?_
    rintro i ts s j rest ⟨isOpen,hs,-⟩ -
    exact .statement hs
  · dsimp only
    split
    next hk => exact classDeclaration_sound hd hk n
    next hk => exact .map ((function_sound hd .function n).weaken fun i ts d j _ hf => .function hk hf)
    next => exact (varDeclaration_sound n).weaken fun i ts s j _ hs => .variable (hs t (by simp_all))

theorem innerStatement_declaration_sound (n : Nat) :
    Sound (innerStatement n) statementPhrase ∧ Sound (declaration n) declarationPhrase := by
  induction n with
  | zero =>
    refine ⟨fail_sound _,(recovering_sound (L := fun _ _ _ _ _ => False) (fail_sound _)).weaken ?_⟩
    rintro i ts found j rest ⟨_,_,h⟩
    exact h.elim
  | succ n ih =>
    have hstatement := statement_sound ih.1 ih.2 (n + 1)
    exact ⟨hstatement,declarationOf_sound hstatement ih.2 (n + 1)⟩

end Parser

open Grammar

/-- When only the last token is an end mark, what stands before the first end mark is all but that one. -/
theorem eq_of_upcoming_eof {ts us rest : List Token} {mark : Token} (hts : ∀ t ∈ ts, t.kind ≠ .eof)
    (hus : ∀ t ∈ us, t.kind ≠ .eof) (h : ts ++ [mark] = us ++ rest) (hmark : mark.kind = .eof)
    (hrest : Parser.upcoming rest = .eof) : ts = us := by
  rcases List.eq_nil_or_concat rest with rfl | ⟨others,last,rfl⟩
  · have hmem : mark ∈ us := by
      rw [List.append_nil] at h
      simp [← h]
    exact absurd hmark (hus mark hmem)
  · rw [List.concat_eq_append] at h hrest
    rw [← List.append_assoc] at h
    obtain ⟨rfl,-⟩ := List.append_inj' h rfl
    cases others with
    | nil => simp
    | cons t others => exact absurd hrest (hts t (by simp))

/-- What is read from a program without an error is its tree. -/
theorem parse_program {i : Nat} {ts : List Token} {mark : Token} (hts : ∀ t ∈ ts, t.kind ≠ .eof)
    (hmark : mark.kind = .eof) {program : List Stmt}
    (hp : (parse (ts ++ [mark]) ⟨i⟩).result = .ok program) :
    ∃ j, Program i ts program j ∧ (parse (ts ++ [mark]) ⟨i⟩).ids = ⟨j⟩ := by
  have hsound := Parser.manyUntil_sound (Parser.innerStatement_declaration_sound
    ((ts ++ [mark]).length + 1)).2 Declarations.none .more [.eof] ((ts ++ [mark]).length + 1)
  revert hp
  unfold parse
  dsimp only
  split
  next ss r hr =>
    intro hp
    obtain ⟨hadv,hphrase⟩ := hsound.ok hr
    simp only [Parsed.result,Parsed.ofReader,List.isEmpty_reverse,List.isEmpty_iff] at hp
    split at hp
    next herrors =>
      cases hp
      obtain ⟨us,hrest,heof,hds,hend⟩ := hphrase (by rw [herrors])
      obtain rfl : us = ts := by
        refine (eq_of_upcoming_eof hts heof hrest hmark ?_).symm
        have hle := hds.length_le
        have hlength := congrArg List.length hrest
        simp only [List.length_append,List.mem_singleton] at hlength hend
        exact hend.resolve_right (by omega)
      exact ⟨r.allocated,hds,rfl⟩
    next => cases hp
  next e r hr =>
    intro hp
    simp [Parsed.result,Parsed.ofReader,Reader.record] at hp

/-- A parse gives out identities and takes none back, whether or not it succeeds. -/
theorem parse_allocated (i : Nat) (ts : List Token) : i ≤ (parse ts ⟨i⟩).ids.allocated := by
  have hsound := Parser.manyUntil_sound (Parser.innerStatement_declaration_sound (ts.length + 1)).2
    Declarations.none .more [.eof] (ts.length + 1)
  unfold parse
  dsimp only
  split
  next ss r hr => exact (hsound.ok hr).1.allocated
  next e r hr => exact (hsound.error hr).allocated

/-- A token list that is parsed without an error is a program in front of the end mark, and what is
returned is its tree. So a token list that is no program has an error. -/
theorem parse_sound {i : Nat} {ts : List Token} {mark : Token} (hts : ∀ t ∈ ts, t.kind ≠ .eof)
    (hmark : mark.kind = .eof) :
    (∀ program, (parse (ts ++ [mark]) ⟨i⟩).result = .ok program →
      ∃ j, Program i ts program j ∧ (parse (ts ++ [mark]) ⟨i⟩).ids = ⟨j⟩) ∧
    ((∀ program j, ¬Program i ts program j) →
      ∃ e es, (parse (ts ++ [mark]) ⟨i⟩).result = .error (e :: es)) := by
  refine ⟨fun program hp => parse_program hts hmark hp,fun hnone => ?_⟩
  cases hresult : (parse (ts ++ [mark]) ⟨i⟩).result with
  | ok program =>
    obtain ⟨j,hj,-⟩ := parse_program hts hmark hresult
    exact absurd hj (hnone program j)
  | error es =>
    cases es with
    | nil =>
      simp only [Parsed.result] at hresult
      split at hresult
      next => cases hresult
      next hne => simp_all
    | cons e es => exact ⟨e,es,rfl⟩

/-- `a.b = c;` -/
theorem parse_sound_property :
    let name (text : String) : Token := ⟨.identifier,text,1⟩
    let mark (kind : Kind) : Token := ⟨kind,kind.name,1⟩
    ∃ j, Program 0 [name "a",mark .dot,name "b",mark .equal,name "c",mark .semicolon]
      [.expression (.set (.variable (.numbered 0) (name "a")) (name "b")
        (.variable (.numbered 1) (name "c")))] j := by
  intro name mark
  have hts : ∀ t ∈ [name "a",mark .dot,name "b",mark .equal,name "c",mark .semicolon],
      t.kind ≠ .eof := by simp [name,mark]
  have hmark : (Token.eof 1).kind = .eof := rfl
  obtain ⟨j,h,-⟩ := (parse_sound (i := 0) hts hmark).1 _ rfl
  exact ⟨j,h⟩

end Lox

import Lox.Proofs.Syntax.Completeness
import Lox.Proofs.Syntax.Omission.Expression
import Lox.Proofs.Syntax.Soundness

/-! Statements in which a semicolon is left out. -/
namespace Lox
namespace Parser

open Reader

variable {α β : Type} {c : Omission} {k n : Nat} {same moves blocks rejoins : Prop} {p : Parser α}

/-! ### Clauses -/

theorem Idle.of_stuck {fault : SyntaxFault} (h : Stuck fault c.brace c.behind p) : Idle c p := by
  intro r a r' hrest hp _
  obtain ⟨_,i,errors,events⟩ := r
  cases hrest
  obtain ⟨events',h'⟩ := h i errors events
  cases h'.symm.trans hp

/-- The semicolon is expected, and nothing is to be read behind it. -/
theorem expectSemicolon_bind {what : Expectation} {f : Token → Parser β} (hidle : ∀ t, Idle c (f t))
    (hf : ∀ t, Staged c k True rejoins (f t)) : Staged c k True rejoins (expect .semicolon what >>= f) := by
  have hexpect : Staged c k True False (expect .semicolon what) := .expectSemicolon
  exact hexpect.bind (fun _ => ⟨trivial,hidle⟩) False.elim hf

theorem brace_stuck (n : Nat) : Stuck .expectedExpression c.brace c.behind (expression n) :=
  expression_stuck (by rw [c.isBrace]; rfl) n

theorem expressionUnless_stuck {kind : Kind} (hkind : kind ≠ .rightBrace) (n : Nat) :
    Stuck .expectedExpression c.brace c.behind (expressionUnless kind n) := by
  refine .bind_peek ?_
  rw [if_neg (by simpa [c.isBrace] using hkind.symm)]
  exact (brace_stuck n).map

theorem increment_ahead (n : Nat) : Ahead c k (expressionUnless .rightParen n) :=
  unless_ahead (by simp) (by simp) (expression_ahead n).map none

/-- The semicolon may stand behind an optional expression, and then the broken parse takes the brace for the
beginning of one. -/
theorem condition_staged {what : Expectation} {f : Option Expr → Parser β} (hidle : ∀ e, Idle c (f e))
    (hf : ∀ e, Staged c k True rejoins (f e)) (n : Nat) :
    Staged c k True rejoins (expressionUnless .semicolon n >>= fun e => expect .semicolon what >>= fun _ => f e) := by
  have hend (e : Option Expr) : Staged c k True rejoins (expect .semicolon what >>= fun _ => f e) :=
    expectSemicolon_bind (fun _ => hidle e) fun _ => hf e
  have hexpression : Ahead c k (some <$> expression n) := (expression_ahead n).map
  have hpresent : Staged c k True rejoins
      ((some <$> expression n) >>= fun e => expect .semicolon what >>= fun _ => f e) := hexpression.bind hend
  unfold expressionUnless
  rw [bind_assoc]
  refine .of_peek (fun t => ?_) ?_ fun t ts => ?_
  · split
    · exact (hend none).grows
    · exact hpresent.grows
  · -- With no expression in front of it: here the two parses decide differently.
    intro hk r b r' hrest hended hp herrors
    have hkind : r.next.kind = .semicolon := by simp [Reader.next,hrest,Omission.whole,c.isSemicolon]
    change ((if r.next.kind = .semicolon then pure none else some <$> expression n) >>= fun e =>
      expect .semicolon what >>= fun _ => f e) r = _ at hp
    rw [if_pos hkind,pure_bind] at hp
    simp only [Bind.bind,EStateM.bind,expect_cons hrest,if_pos c.isSemicolon] at hp
    obtain ⟨hlater,hallocated,hreads⟩ := hidle none rfl hp herrors
    have hstuck : Stuck .expectedExpression c.brace c.behind (peek >>= fun t =>
        (if t.kind = .semicolon then pure none else some <$> expression n) >>= fun e =>
          expect .semicolon what >>= fun _ => f e) := by
      refine .bind_peek ?_
      rw [if_neg (by simp [c.isBrace])]
      exact (brace_stuck n).map.bind
    have hfatal : SyntaxFault.expectedExpression.isFatal := rfl
    refine .blocked trivial hlater hfatal (fun errors events => ?_) ?_
    · exact hallocated ▸ hstuck r.allocated errors events
    · have hhead : ((c.mended []).headD (.eof 1)).kind = .semicolon := c.isSemicolon
      refine peek_reads.bind ?_
      rw [if_pos hhead,pure_bind]
      exact (expect_reads c.isSemicolon what).bind (hallocated ▸ hreads)
  · split
    · exact (hend none).cut _
    · exact hpresent.cut _

theorem initialValue_ahead (n : Nat) : Ahead c k (initialValue n) := by
  refine Ahead.bind (.take? (by simp) (by simp) (by simp)) fun found => ?_
  cases found with
  | none => exact .pure none
  | some => exact (expression_ahead n).map

theorem superclassClause_ahead : Ahead c k superclassClause := by
  refine Ahead.bind (.take? (by simp) (by simp) (by simp)) fun found => ?_
  cases found with
  | none => exact .pure none
  | some => exact Ahead.bind (.expect (by simp) (by simp)) fun _ => Ahead.bind .freshId fun _ => .pure _

theorem varDeclaration_staged (n : Nat) : Staged c k True rejoins (varDeclaration n) := by
  refine Ahead.bind (.expect (by simp) (by simp)) fun name => (initialValue_ahead n).bind fun initializer => ?_
  exact expectSemicolon_bind (fun _ => .pure _) fun _ => .pure _

theorem expressionStatement_staged (n : Nat) : Staged c k True rejoins (expressionStatement n) :=
  (expression_ahead n).bind fun _ => expectSemicolon_bind (fun _ => .pure _) fun _ => .pure _

theorem printStatement_staged (n : Nat) : Staged c k True rejoins (printStatement n) :=
  (expression_ahead n).bind fun _ => expectSemicolon_bind (fun _ => .pure _) fun _ => .pure _

theorem returnStatement_staged (keyword : Token) (n : Nat) : Staged c k True rejoins (returnStatement keyword n) :=
  condition_staged (fun _ => .pure _) (fun _ => .pure _) n

/-- The first clause of a `for` statement may be the semicolon itself. -/
theorem forInitializer_staged (n : Nat) : Staged c k True rejoins (forInitializer n) := by
  have hexpression {k : Nat} : Staged c k True rejoins (some <$> expressionStatement n) :=
    (expressionStatement_staged n).map
  have hclause {k : Nat} (t : Token) : Staged c k True rejoins
      (if t.kind = .semicolon then pure none else some <$> varDeclaration n) := by
    split
    · exact .pure none
    · exact (varDeclaration_staged n).map
  refine ⟨.bind (.of_sound (take?_sound (by simp))) fun found => ?_,fun ts => ?_⟩
  · cases found with
    | none => exact (hexpression (k := k)).grows
    | some t => exact (hclause (k := k) t).grows
  cases ts with
  | cons t ts =>
    cases k with
    | zero => exact .zero
    | succ k => exact .bind_take? (by simp) (fun _ => hexpression.cut _) fun _ => (hclause t).cut ts
  | nil =>
    intro hk r clause r' hrest hended hp herrors
    have hmem : c.semicolon.kind ∈ [Kind.semicolon,.kwVar] := by simp [c.isSemicolon]
    have htake : take? [.semicolon,.kwVar] r = .ok (some c.semicolon) { r with rest := c.brace :: c.behind } := by
      simp only [take?,hrest,Omission.whole,List.nil_append,if_pos hmem]
    simp only [forInitializer,Bind.bind,EStateM.bind,htake,c.isSemicolon,if_true] at hp
    cases hp
    have hstuck : Stuck .expectedExpression c.brace c.behind (forInitializer n) :=
      .bind_take? (by simp [c.isBrace]) (brace_stuck n).bind.map
    refine .blocked trivial rfl rfl (hstuck r.allocated) ((take?_reads hmem).bind ?_)
    simp only [c.isSemicolon,if_true]
    exact .pure none

/-! ### Statements -/

section Statements

variable {statement : Parser Stmt} {further : Parser (Option Stmt)}

theorem whileStatement_staged (h : Staged c k True True statement) (n : Nat) :
    Staged c k True True (whileStatement statement n) := by
  refine Ahead.bind (.expect (by simp) (by simp)) fun _ => (expression_ahead n).bind fun _ => ?_
  refine Ahead.bind (.expect (by simp) (by simp)) fun _ => ?_
  exact h.bind_pure

theorem ifStatement_staged (h : Staged c k True True statement) (hs : Steady same moves k statement statement)
    (n : Nat) :
    Staged c k True True (ifStatement statement n) := by
  refine Ahead.bind (.expect (by simp) (by simp)) fun _ => (expression_ahead n).bind fun condition => ?_
  refine Ahead.bind (.expect (by simp) (by simp)) fun _ => ?_
  refine h.bind (fun _ => ⟨trivial,fun _ => .bind_take? (by simp) (by simp) (.pure _)⟩)
    (fun _ => ⟨trivial,fun a b => ?_⟩) fun thenBranch => ?_
  · cases k with
    | zero => exact .zero
    | succ k =>
      refine .bind_take? (by simp) (.pure False.elim) fun _ _ => ?_
      exact (hs.mono (Nat.le_succ k)).bind fun _ _ _ => .pure False.elim
  · refine Ahead.bind (.take? (by simp) (by simp) (by simp)) fun found => ?_
    cases found with
    | none => exact .pure _
    | some => exact h.bind_pure

theorem forStatement_staged (keyword : Token) (h : Staged c k True True statement) (n : Nat) :
    Staged c k True True (forStatement keyword statement n) := by
  refine Ahead.bind (.expect (by simp) (by simp)) fun _ => ?_
  have hinitializer : Staged c k True False (forInitializer n) := forInitializer_staged n
  refine hinitializer.bind (fun _ => ⟨trivial,fun _ => ?_⟩) False.elim fun initializer =>
    condition_staged (fun condition => ?_) (fun condition => ?_) n
  · exact .of_stuck (expressionUnless_stuck (by simp) n).bind
  · exact .of_stuck (expressionUnless_stuck (by simp) n).bind
  · refine (increment_ahead n).bind fun increment => Ahead.bind (.expect (by simp) (by simp)) fun _ => ?_
    refine h.bind (fun _ => ⟨trivial,fun _ => .bind_note (.pure _)⟩) (fun _ => ⟨trivial,fun _ _ => ?_⟩) fun body => ?_
    · exact (Steady.note _ _).bind fun _ _ _ => .pure False.elim
    · exact Ahead.bind (.note _) fun _ => .pure _

end Statements

/-! ### Recovery -/

/-- The broken parse has recovered behind the brace where the mended one is in front of the empty block. -/
structure Parted (c : Omission) (p : Parser α) (ts : List Token) (i j : Nat) (a : α) : Prop where
  mended : Reads p i (c.mended ts) a j (c.opening :: c.brace :: c.resumed)
  broken : ∃ fault, SyntaxFault.isFatal fault ∧ ∀ errors events, ∃ b events',
    p ⟨c.broken ts,i,errors,events⟩ = .ok b ⟨c.resumed,j,.syntactic fault c.brace :: errors,events'⟩

/-- What the rounds of a loop do; `parts` tells whether they recover from errors. -/
structure StagedItem (c : Omission) (k : Nat) (parts : Prop) (item : Parser (Option α)) : Prop where
  grows : Grows item
  cut : ∀ ts, (c.whole ts).length ≤ k → ∀ ⦃r a r'⦄, r.rest = c.whole ts → Ended r.rest → item r = .ok a r' →
    r'.errors.length = r.errors.length →
      Stage c False True item ts r.allocated a r' ∨ parts ∧ Parted c item ts r.allocated r'.allocated a

theorem StagedItem.noted {parts : Prop} {item : Parser (Option α)} (h : StagedItem c k parts item) (e : Token → Event) :
    StagedItem c k parts (peek >>= fun t => note (e t) >>= fun _ => item) where
  grows := .bind (.of_sound peek_sound) fun t => .bind (.of_sound (note_sound (e t))) fun _ => h.grows
  cut ts hts r a r' hrest hended hp herrors := by
    rcases @h.cut ts hts (r.note (e r.next)) a r' hrest hended hp herrors with hstage | ⟨hparts,hparted⟩
    · exact .inl (hstage.congr (fun _ _ => ⟨_,rfl⟩) fun _ _ => ⟨_,rfl⟩)
    · obtain ⟨fault,hfault,hbroken⟩ := hparted.broken
      exact .inr ⟨hparts,peek_reads.bind ((note_reads _).bind hparted.mended),fault,hfault,
        fun errors events => hbroken errors _⟩

/-- What a loop needs of its rounds: none accepts the semicolon as its first token, and those that recover
from errors accept the empty block. -/
structure StagedRound (c : Omission) (k : Nat) (parts : Prop) (item : Parser (Option α)) : Prop where
  staged : StagedItem c k parts item
  steady : Steady True True k item item
  refuses : ∀ ⦃r found r'⦄, r.next.kind = .semicolon → item r = .ok found r' → r.errors.length < r'.errors.length
  empty : parts → ∀ i, ∃ x, Reads item i (c.opening :: c.brace :: c.resumed) x i c.resumed

theorem StagedRound.mono {parts : Prop} {item : Parser (Option α)} {k' : Nat} (h : StagedRound c k parts item)
    (hk : k' ≤ k) : StagedRound c k' parts item where
  staged := ⟨h.staged.grows,fun ts hts => h.staged.cut ts (Nat.le_trans hts hk)⟩
  steady := h.steady.mono hk
  refuses := h.refuses
  empty := h.empty

theorem Rejoined.recovering {p : Parser Stmt} {errors errors' : List Error} {r s : Reader}
    (h : Rejoined c errors errors' (p r) (p s)) : Rejoined c errors errors' (recovering p r) (recovering p s) := by
  simp only [Parser.recovering]
  generalize p r = x, p s = y at h ⊢
  cases h with
  | ok hfault hr hs hpaired hlength => exact .ok hfault hr hs hpaired hlength
  | @error fault new e r s hfault hr hs hpaired hlength =>
    obtain ⟨us,hsplit,hended,-⟩ := recover_split hpaired.ended
    have hsame : s.rest = r.rest := by rw [hpaired.rest,List.append_nil]
    have hle := congrArg List.length hsplit
    rw [List.length_append] at hle
    have hnew : e :: r.errors = (e :: new) ++ .syntactic fault c.brace :: errors := congrArg (e :: ·) hr
    have hnew' : e :: s.errors = (e :: new) ++ errors' := congrArg (e :: ·) hs
    refine .ok hfault hnew hnew' ⟨hended,?_,hpaired.allocated⟩ ?_
    · simp [hsame]
    · exact Nat.le_trans (hle ▸ Nat.le_add_left _ _) hlength

theorem recovering_staged {p : Parser Stmt} (h : Staged c k True True p) : StagedItem c k True (recovering p) where
  grows := {
    ok := fun r found r' hp => by
      simp only [recovering] at hp
      split at hp <;> cases hp
      next hs => exact h.grows.ok hs
      next he =>
        have hle := h.grows.error he
        exact Nat.le_succ_of_le hle
    error := fun r e r' hp => by
      simp only [recovering] at hp
      split at hp <;> cases hp }
  cut ts hts r found r' hrest hended hp herrors := by
    simp only [recovering] at hp
    split at hp <;> cases hp
    next s hs =>
      have hstage := h.cut ts hts hrest hended hs herrors
      cases hstage with
      | ahead hsplit hlater hbroken hmended =>
        exact .inl (.ahead hsplit hlater (recovering_reads hbroken) (recovering_reads hmended))
      | @blocked fault _ hlater hfault hbroken hmended =>
        refine .inr ⟨trivial,recovering_reads hmended,fault,hfault,fun errors events => ?_⟩
        obtain ⟨events',h'⟩ := hbroken errors events
        refine ⟨none,.recovering (.syntactic fault c.brace) :: events',?_⟩
        simp only [recovering,h',c.recover_brace,Reader.note,Reader.record]
      | rejoined _ h =>
        exact .inl (.rejoined trivial fun errors events errors' events' => (h errors events errors' events').recovering)
    next e he =>
      have hle := h.grows.error he
      simp only [Reader.record,Reader.note,List.length_cons] at herrors
      omega

section ManyUntil

variable {parts : Prop} {item : Parser (Option α)} {closing : List Kind}

/-- The rounds of a loop behind one that has given the result. -/
def laterRounds (closing : List Kind) (item : Parser (Option α)) (n : Nat) (found : Option α) : Parser (List α) := do
  let others ← manyUntil closing item n
  return found.toList ++ others

theorem manyUntil_round {r : Reader} (h : r.next.kind ∉ closing) :
    manyUntil closing item (n + 1) r = (item >>= laterRounds closing item n) r := by
  change (if r.next.kind ∈ closing then (pure [] : Parser (List α)) else _) r = _
  rw [if_neg h]
  rfl

theorem manyUntil_grows (h : Grows item) (closing : List Kind) (n : Nat) : Grows (manyUntil closing item n) := by
  induction n with
  | zero => exact .pure _
  | succ n ih =>
    refine .bind (.of_sound peek_sound) fun t => ?_
    split
    · exact .pure _
    · exact h.bind fun _ => ih.bind fun _ => .pure _

theorem laterRounds_grows (h : Grows item) (found : Option α) : Grows (laterRounds closing item n found) :=
  (manyUntil_grows h closing n).bind fun _ => .pure _

theorem laterRounds_steady (hclosing : Kind.eof ∈ closing) (h : Steady True True k item item) (hn : k ≤ n)
    (a b : Option α) : Steady False False k (laterRounds closing item n a) (laterRounds closing item n b) :=
  (manyUntil_steady hclosing h hn hn).bind fun _ _ _ => .pure False.elim

theorem laterRounds_staged (h : Staged c k False True (manyUntil closing item n)) (found : Option α) :
    Staged c k False True (laterRounds closing item n found) := h.bind_pure

/-- The broken parse goes on with the loop behind the brace, the mended one reads the empty block first. -/
theorem Parted.rejoined {ts : List Token} {i j : Nat} {a x : Option α} (h : Parted c item ts i j a)
    (hclosing : Kind.eof ∈ closing) (hopening : Kind.leftBrace ∉ closing)
    (hempty : Reads item j (c.opening :: c.brace :: c.resumed) x j c.resumed)
    (hsteady : Steady True True c.behind.length item item) (hn : c.behind.length < n)
    (errors errors' : List Error) (events events' : List Event) :
    Rejoined c errors errors' ((item >>= laterRounds closing item n) ⟨c.broken ts,i,errors,events⟩)
      ((item >>= laterRounds closing item n) ⟨c.mended ts,i,errors',events'⟩) := by
  obtain ⟨fault,hfault,hbroken⟩ := h.broken
  obtain ⟨b,events₁,h₁⟩ := hbroken errors events
  obtain ⟨events₂,h₂⟩ := h.mended errors' events'
  obtain ⟨events₃,h₃⟩ := hempty errors' events₂
  -- The mended parse is one round further on, so the two loops have different budgets left.
  obtain ⟨n,rfl⟩ : ∃ m, n = m + 1 := ⟨n - 1,by omega⟩
  let r : Reader := ⟨c.resumed,j,.syntactic fault c.brace :: errors,events₁⟩
  let s : Reader := ⟨c.resumed,j,errors',events₃⟩
  have hrun : (item >>= laterRounds closing item (n + 1)) ⟨c.broken ts,i,errors,events⟩ =
      laterRounds closing item (n + 1) b r := by
    simp only [Bind.bind,EStateM.bind,h₁,r]
  have hrun' : (item >>= laterRounds closing item (n + 1)) ⟨c.mended ts,i,errors',events'⟩ =
      (laterRounds closing item n x >>= fun others => pure (a.toList ++ others)) s := by
    have hround := @manyUntil_round _ n item closing ⟨c.opening :: c.brace :: c.resumed,j,errors',events₂⟩
      (by simpa [Reader.next,c.isOpening] using hopening)
    simp only [Bind.bind,EStateM.bind,h₂,laterRounds] at hround ⊢
    rw [hround]
    simp only [h₃,s]
  have hrounds : Steady False False c.behind.length (laterRounds closing item (n + 1) b)
      (laterRounds closing item n x >>= fun others => pure (a.toList ++ others)) := by
    unfold laterRounds
    rw [bind_assoc]
    have hloop := manyUntil_steady hclosing hsteady (Nat.le_of_lt hn) (Nat.le_of_lt_succ hn)
    exact hloop.bind fun _ _ _ => .pure False.elim
  have hpaired : Paired [] r s := ⟨c.resumed_ended,by simp [r,s],rfl⟩
  have hr : r.errors = [] ++ .syntactic fault c.brace :: errors := rfl
  rw [hrun,hrun']
  exact (hrounds hpaired c.resumed_length_le).rejoined hfault hr rfl c.resumed_length_le

/-- One round in front of the semicolon, and the rounds behind it, on fewer tokens. -/
theorem round_staged (hclosing : Kind.eof ∈ closing) (hopening : Kind.leftBrace ∉ closing)
    (h : StagedRound c k parts item) (hloop : Staged c (k - 1) False True (manyUntil closing item n))
    (hn : k ≤ n + 1) {t : Token} (ht : t.kind ∉ closing) (ts : List Token) :
    StagedAt c k False True (item >>= laterRounds closing item n) (t :: ts) := by
  intro hts r xs r' hrest hended hp herrors
  have hne : r.next.kind ≠ .eof := by
    rw [show r.next = t by simp [Reader.next,hrest,Omission.whole]]
    exact fun heof => ht (heof ▸ hclosing)
  obtain ⟨found,r₁,hfound,hp₁⟩ := bind_ok hp
  have hgrows := h.staged.grows
  have hle := hgrows.ok hfound
  have hle' := (laterRounds_grows hgrows found).ok hp₁
  have hk : r.rest.length ≤ k := by rwa [hrest]
  obtain ⟨hshort,hended₁⟩ := h.steady.shorter hended hk hne hfound
  have hbehind := Omission.behind_length_lt hts
  -- Either the round has left the semicolon ahead or recovered further in, or it has recovered itself.
  rcases h.staged.cut _ hts hrest hended hfound (by omega) with hstage | ⟨hparts,hparted⟩
  · cases hstage with
    | @ahead us later hsplit hlater hbroken hmended =>
      have hlength : (c.whole later).length ≤ k - 1 := by
        rw [← hlater]
        omega
      have hrounds := (laterRounds_staged hloop found).cut later hlength hlater hended₁ hp₁ (by omega)
      exact hrounds.after hsplit hbroken hmended
    | blocked hb => exact hb.elim
    | rejoined _ hrejoined =>
      refine .rejoined trivial fun errors events errors' events' => ?_
      have hlater := laterRounds_steady hclosing (h.steady.mono (show c.behind.length ≤ k by omega))
        (show c.behind.length ≤ n by omega)
      exact (hrejoined errors events errors' events').bind (Nat.le_refl _) hlater
  · refine .rejoined trivial fun errors events errors' events' => ?_
    obtain ⟨x,hx⟩ := h.empty hparts r₁.allocated
    exact hparted.rejoined hclosing hopening hx (h.steady.mono (by omega)) (by omega) errors errors' events events'

/-- No round is in front of the semicolon itself, since none would accept it. -/
theorem manyUntil_staged (hclosing : Kind.eof ∈ closing) (hsemicolon : Kind.semicolon ∉ closing)
    (hopening : Kind.leftBrace ∉ closing) (h : StagedRound c k parts item) (hn : k ≤ n) :
    Staged c k False True (manyUntil closing item n) := by
  have hgrows := h.staged.grows
  refine ⟨manyUntil_grows hgrows closing n,?_⟩
  induction n generalizing k with
  | zero =>
    obtain rfl : k = 0 := Nat.le_zero.mp hn
    exact fun ts => .zero
  | succ n ih =>
    refine (Staged.of_peek (fun t => ?_) ?_ fun t ts => ?_).cut
    · split
      · exact .pure _
      · exact hgrows.bind fun found => laterRounds_grows hgrows found
    · intro hts r xs r' hrest hended hp herrors
      have hnext : r.next.kind = .semicolon := by simp [Reader.next,hrest,Omission.whole,c.isSemicolon]
      have hp' : manyUntil closing item (n + 1) r = .ok xs r' := hp
      rw [manyUntil_round (hnext ▸ hsemicolon)] at hp'
      obtain ⟨found,r₁,hfound,hp₁⟩ := bind_ok hp'
      have hlt := h.refuses hnext hfound
      have hle := (laterRounds_grows hgrows found).ok hp₁
      omega
    · split
      · exact (Staged.pure _).cut _
      next ht =>
        have hloop : Staged c (k - 1) False True (manyUntil closing item n) :=
          ⟨manyUntil_grows hgrows closing n,ih (h.mono (Nat.sub_le k 1)) (by omega)⟩
        exact round_staged hclosing hopening h hloop hn ht ts

end ManyUntil

/-! ### Declarations -/

section Declarations

variable {statement : Parser Stmt} {further : Parser (Option Stmt)}

theorem block_staged (h : StagedRound c k True further) (hn : k ≤ n) : Staged c k False True (block further n) := by
  have hloop : Staged c k False True (manyUntil [.rightBrace,.eof] further n) :=
    manyUntil_staged (by simp) (by simp) (by simp) h hn
  refine hloop.bind False.elim (fun _ => ⟨trivial,fun _ _ => ?_⟩) fun body => ?_
  · exact (Steady.expect (by simp) _).bind fun _ _ _ => .pure False.elim
  · exact Ahead.bind (.expect (by simp) (by simp)) fun _ => .pure _

theorem function_staged (kind : FunctionKind) (h : StagedRound c k True further) (hn : k ≤ n) :
    Staged c k False True (function kind further n) := by
  refine Ahead.bind (.expect (by simp) (by simp)) fun name => Ahead.bind (.expect (by simp) (by simp)) fun _ => ?_
  refine (listed_ahead (.expect (by simp) (by simp)) .tooManyParameters n).bind fun parameters => ?_
  refine Ahead.bind (.expect (by simp) (by simp)) fun _ => Ahead.bind (.expect (by simp) (by simp)) fun _ => ?_
  exact (block_staged h hn).bind_pure

theorem classDeclaration_staged (h : StagedRound c k True further) (hn : k ≤ n) :
    Staged c k False True (classDeclaration further n) := by
  refine Ahead.bind (.expect (by simp) (by simp)) fun name => superclassClause_ahead.bind fun superclass => ?_
  refine Ahead.bind (.expect (by simp) (by simp)) fun _ => ?_
  have hmethod : Staged c k False True (some <$> function .method further n) := (function_staged .method h hn).map
  have hround : StagedRound c k False (some <$> function .method further n) := {
    staged := ⟨hmethod.grows,fun ts hts _ _ _ hrest hended hp herrors => .inl (hmethod.cut ts hts hrest hended hp herrors)⟩
    steady := (function_steady .method h.steady hn hn).map
    refuses := fun r found r' hnext hp => by
      rw [map_eq_pure_bind] at hp
      obtain ⟨d,r₁,hd,-⟩ := bind_ok hp
      obtain ⟨name,r₂,hname,-⟩ := bind_ok hd
      rw [expect_next hname] at hnext
      cases hnext
    empty := False.elim }
  have hloop : Staged c k False True (manyUntil [.rightBrace,.eof] (some <$> function .method further n) n) :=
    manyUntil_staged (by simp) (by simp) (by simp) hround hn
  refine hloop.bind False.elim (fun _ => ⟨trivial,fun _ _ => ?_⟩) fun methods => ?_
  · refine (Steady.expect (by simp) _).bind fun _ _ _ => ?_
    exact (Steady.note _ _).bind fun _ _ _ => .pure False.elim
  · exact Ahead.bind (.expect (by simp) (by simp)) fun _ => Ahead.bind (.note _) fun _ => .pure _

theorem statement_staged (h : Staged c k True True statement) (hs : Steady same moves k statement statement)
    (hd : StagedRound c k True further) (hn : k ≤ n) :
    Staged c (k + 1) True True (Parser.statement statement further n) := by
  refine .bind_take? (by simp) (by simp) (by simp) (expressionStatement_staged n) fun t _ => ?_
  dsimp only
  split
  · exact forStatement_staged t h n
  · exact ifStatement_staged h hs n
  · exact whileStatement_staged h n
  · exact returnStatement_staged t n
  · exact ((block_staged hd hn).weaken False.elim id).map
  · exact printStatement_staged n

theorem declarationOf_staged (h : Staged c (k + 1) True True statement) (hd : StagedRound c k True further) (hn : k ≤ n) :
    StagedItem c (k + 1) True (declarationOf statement further n) := by
  refine StagedItem.noted (recovering_staged ?_) fun t => .declaration t.line
  refine .bind_take? (by simp) (by simp) (by simp) h fun t _ => ?_
  dsimp only
  split
  · exact (classDeclaration_staged hd hn).weaken False.elim id
  · exact ((function_staged .function hd hn).weaken False.elim id).map
  · exact varDeclaration_staged n

theorem declaration_refuses {r r' : Reader} {found : Option Stmt} (hnext : r.next.kind = .semicolon)
    (hp : declaration n r = .ok found r') : r.errors.length < r'.errors.length := by
  obtain ⟨hadv,hphrase⟩ := (innerStatement_declaration_sound n).2.ok hp
  refine Nat.lt_of_le_of_ne hadv.errors fun herrors => ?_
  obtain ⟨ts,hrest,-,s,-,hs⟩ := hphrase herrors.symm
  obtain ⟨first,us,rfl,hfirst⟩ := Grammar.Declaration.starts hs
  rw [show r.next = first by simp [Reader.next,hrest]] at hnext
  rw [hnext] at hfirst
  cases hfirst

theorem emptyBlock_reads (n i : Nat) :
    Reads (declaration (n + 1)) i (c.opening :: c.brace :: c.resumed) (some (.block [])) i c.resumed := by
  have hbrace : upcoming (c.brace :: c.resumed) ∈ [Kind.rightBrace,.eof] := by simp [c.isBrace]
  have hblock : Reads (block (declaration n) (n + 1)) i (c.brace :: c.resumed) [] i c.resumed :=
    (manyUntil_stops hbrace _).bind ((expect_reads c.isBrace _).bind (.pure _))
  refine peek_reads.bind ((note_reads _).bind (recovering_reads ?_))
  refine (take?_reads_none (by simp [c.isOpening])).bind ((take?_reads (by simp [c.isOpening])).bind ?_)
  simp only [c.isOpening]
  exact hblock.map Stmt.block

theorem declaration_round (h : StagedItem c k True (declaration n)) (hn : k < n) :
    StagedRound c k True (declaration n) where
  staged := h
  steady := (innerStatement_declaration_steady hn hn).2
  refuses _ _ _ hnext hp := declaration_refuses hnext hp
  empty _ i := by
    obtain ⟨n,rfl⟩ : ∃ m, n = m + 1 := ⟨n - 1,by omega⟩
    exact ⟨_,emptyBlock_reads n i⟩

/-- What the rules do at `k` tokens settles what they do at one more. -/
theorem innerStatement_declaration_staged (hn : k < n) :
    Staged c k True True (innerStatement n) ∧ StagedItem c k True (declaration n) := by
  induction k generalizing n with
  | zero =>
    have hsound := innerStatement_declaration_sound n
    refine ⟨⟨.of_sound hsound.1,fun ts => .zero⟩,.of_sound hsound.2,fun ts hts => ?_⟩
    simp [Omission.whole] at hts
  | succ k ih =>
    obtain ⟨n,rfl⟩ := Nat.exists_eq_add_of_lt hn
    have hk : k < k + 1 + n := by omega
    obtain ⟨hinner,hitem⟩ := ih hk
    have hsteady := (innerStatement_declaration_steady hk hk).1
    have hfurther := declaration_round hitem hk
    have hstatement := statement_staged hinner hsteady hfurther (n := k + 1 + n + 1) (by omega)
    exact ⟨hstatement,declarationOf_staged hstatement hfurther (by omega)⟩

end Declarations
end Parser
end Lox

import Lox.Proofs.Alike.Shape
import Lox.Proofs.Syntax.Recovery
import Lox.Proofs.Syntax.Seam.Rules

/-! A token list is parsed like its two parts, one after the other, if the first one does not end inside a
declaration. -/
namespace Lox
namespace Parser

variable {α : Type} {c : Seam} {closing : List Kind} {item : Parser (Option α)} {us : List Token} {n : Nat}
  {r r' s s' : Reader}

/-! ### The loop over the declarations -/

/-- Declarations record their errors. -/
theorem declaration_ok (n : Nat) (r : Reader) : ∃ found r', declaration n r = .ok found r' := by
  have hrecovering (p : Parser Stmt) (r : Reader) : ∃ found r', recovering p r = .ok found r' := by
    simp only [recovering]
    split
    · exact ⟨_,_,rfl⟩
    · exact ⟨_,_,rfl⟩
  cases n with
  | zero => exact hrecovering _ r
  | succ n => exact hrecovering _ (r.note (.declaration r.next.line))

theorem manyUntil_done (hnext : r.next.kind ∈ closing) (n : Nat) : manyUntil closing item n r = .ok [] r := by
  cases n with
  | zero => rfl
  | succ n =>
    change (if r.next.kind ∈ closing then (pure [] : Parser (List α)) else _) r = _
    rw [if_pos hnext]
    rfl

theorem manyUntil_next {x : Option α} {xs : List α} {r₁ : Reader} (hnext : r.next.kind ∉ closing)
    (hx : item r = .ok x r₁) (hxs : manyUntil closing item n r₁ = .ok xs r') :
    manyUntil closing item (n + 1) r = .ok (x.toList ++ xs) r' := by
  rw [manyUntil_round hnext]
  simp only [Bind.bind,EStateM.bind,hx,laterRounds,hxs]
  rfl

theorem program_ok (n m : Nat) (r : Reader) : ∃ ss r', manyUntil [.eof] (declaration n) m r = .ok ss r' := by
  induction m generalizing r with
  | zero => exact ⟨[],r,rfl⟩
  | succ m ih =>
    by_cases hnext : r.next.kind ∈ [Kind.eof]
    · exact ⟨[],r,manyUntil_done hnext _⟩
    · obtain ⟨x,r₁,hx⟩ := declaration_ok n r
      obtain ⟨xs,r₂,hxs⟩ := ih r₁
      exact ⟨x.toList ++ xs,r₂,manyUntil_next hnext hx hxs⟩

/-- The first parse comes to its end mark, and the second one to the seam, from where it goes on to its end. -/
theorem declarations_seam {rounds more : Nat} {ss tt : List Stmt} (h : Beside c us r s) (hn : r.rest.length < n)
    (hrounds : us.length ≤ rounds) (hmore : us.length + c.later.length ≤ more)
    (hfirst : manyUntil [.eof] (declaration n) rounds r = .ok ss r')
    (hsecond : manyUntil [.eof] (declaration n) more s = .ok tt s') :
    (∃ e ∈ r'.errors, c.Excludes e) ∨ ∃ s₁ left vv, Beside c [] r' s₁ ∧ c.later.length ≤ left ∧
      manyUntil [.eof] (declaration n) left s₁ = .ok vv s' ∧ tt = ss ++ vv := by
  induction rounds generalizing us r s more ss tt with
  | zero =>
    obtain rfl : us = [] := List.length_eq_zero_iff.mp (Nat.le_zero.mp hrounds)
    cases hfirst
    exact .inr ⟨s,more,tt,h,by simpa using hmore,hsecond,rfl⟩
  | succ rounds ih =>
    cases us with
    | nil =>
      have hmark : r.next.kind ∈ [Kind.eof] := by simp [Reader.next,h.first,c.isMark]
      rw [manyUntil_done hmark] at hfirst
      cases hfirst
      exact .inr ⟨s,more,tt,h,by simpa using hmore,hsecond,rfl⟩
    | cons t us =>
      have hinside : t.kind ≠ .eof := h.inside t List.mem_cons_self
      have hnext : r.next.kind ∉ [Kind.eof] := by simpa [Reader.next,h.first] using hinside
      have hnext' : s.next.kind ∉ [Kind.eof] := by simpa [Reader.next,h.second] using hinside
      cases more with
      | zero => simp at hmore
      | succ more =>
      rw [manyUntil_round hnext] at hfirst
      rw [manyUntil_round hnext'] at hsecond
      obtain ⟨x,r₁,hx,hfirst⟩ := bind_ok hfirst
      obtain ⟨y,s₁,hy,hsecond⟩ := bind_ok hsecond
      obtain ⟨xs,r₂,hxs,hss⟩ := bind_ok hfirst
      obtain ⟨ys,s₂,hys,htt⟩ := bind_ok hsecond
      cases hss
      cases htt
      have hclosing := (innerStatement_declaration_closes (c := c) n).2
      have hround := hclosing.abreast h
      rw [hx,hy] at hround
      cases hround with
      | @ok vs a _ _ hvs hrs =>
        have hended : Ended r.rest := h.first ▸ .append_mark c.isMark h.inside
        have hshort := ((innerStatement_declaration_steady hn hn).2.shorter hended (Nat.le_refl _)
          (by simpa using hnext) hx).1
        have hlength : vs.length < us.length + 1 := by simpa [hrs.first,h.first] using hshort
        simp only [List.length_cons] at hrounds hmore
        rcases ih hrs (by omega) (by omega) (by omega) hxs hys with he | ⟨s₁,left,vv,hseam,hleft,hvv,rfl⟩
        · exact .inl he
        · exact .inr ⟨s₁,left,vv,hseam,hleft,hvv,(List.append_assoc _ _ _).symm⟩
      | ended hl => exact hl.elim
      | excluded he =>
        obtain ⟨e,hmem,he⟩ := he
        have hkept := ((manyUntil_joins hclosing.loosely [.eof] rounds).keeps r₁).subset hmem
        rw [hxs] at hkept
        exact .inl ⟨e,hkept,he⟩

end Parser

/-! ### Two token lists -/

/-- What a parse gives can be seen from a run with any budget that is large enough. -/
theorem parse_of_run {tokens : List Token} {n m : Nat} (h : Ended tokens) (hn : tokens.length < n)
    (hm : tokens.length ≤ m) (ids : ExprIds) {r r' : Reader} (hr : r.rest = tokens)
    (hids : r.allocated = ids.allocated) {ss : List Stmt}
    (hrun : Parser.manyUntil [.eof] (Parser.declaration n) m r = .ok ss r') :
    (parse tokens ids).statements = ss ∧ r'.errors.reverse = r.errors.reverse ++ (parse tokens ids).errors ∧
      (parse tokens ids).ids.allocated = r'.allocated := by
  have hsteady : Parser.Steady True False tokens.length (Parser.manyUntil [.eof] (Parser.declaration n) m)
      (Parser.program (tokens.length + 1)) :=
    Parser.manyUntil_steady (by simp)
      (Parser.innerStatement_declaration_steady hn (Nat.lt_succ_self _)).2 hm (Nat.le_succ _)
  have hpaired : Reader.Paired [] r (.ofTokens tokens ids) := ⟨hr ▸ h,by simp [Reader.ofTokens,hr],hids.symm⟩
  have htogether := hsteady hpaired (Nat.le_of_eq (congrArg List.length hr))
  rw [hrun] at htogether
  rw [parse_run]
  generalize Parser.program (tokens.length + 1) (.ofTokens tokens ids) = y at htogether ⊢
  cases htogether with
  | ok hr' hs' _ hpaired' _ hab =>
    refine ⟨(hab trivial).symm,?_,hpaired'.allocated⟩
    simp [Parsed.ofReader,hr'.errors,hs'.errors,Reader.ofTokens]

/-- The first list is parsed as before, and the second one after it with the identities that come next. -/
theorem parse_append {ts us : List Token} {mark final : Token} (hts : ∀ t ∈ ts, t.kind ≠ .eof)
    (hus : ∀ t ∈ us, t.kind ≠ .eof) (hmark : mark.kind = .eof) (hfinal : final.kind = .eof) {ids : ExprIds}
    (hboundary : (parse (ts ++ [mark]) ids).errors = [] ∨ ∀ t ∈ ts.getLast?, t.kind = .semicolon)
    (hend : ∀ e ∈ (parse (ts ++ [mark]) ids).errors, e.isAtEnd = false) (helse : ∀ t ∈ us.head?, t.kind ≠ .kwElse) :
    let first := parse (ts ++ [mark]) ids
    let second := parse (us ++ [final]) first.ids
    let whole := parse (ts ++ us ++ [final]) ids
    whole.statements = first.statements ++ second.statements ∧ whole.errors = first.errors ++ second.errors ∧
      whole.ids = second.ids := by
  intro first second whole
  have hnoElse : Parser.upcoming (us ++ [final]) ≠ .kwElse := by
    cases us with
    | nil => simp [hfinal]
    | cons t us => exact helse t rfl
  let c : Seam := ⟨mark,us ++ [final],first.errors = [],hmark,.append_mark hfinal hus,hnoElse⟩
  have hbeside : Parser.Beside c ts (.ofTokens (ts ++ [mark]) ids) (.ofTokens (ts ++ us ++ [final]) ids) :=
    ⟨rfl,List.append_assoc _ _ _,hts,hboundary,rfl,rfl⟩
  let n := (ts ++ us ++ [final]).length + 1
  have hn : (ts ++ [mark]).length < n ∧ (us ++ [final]).length < n ∧ ts.length ≤ n ∧
      ts.length + (us ++ [final]).length ≤ n := by
    simp only [n,List.length_append,List.length_singleton]
    omega
  obtain ⟨ss,r,hfirst⟩ := Parser.program_ok n n (.ofTokens (ts ++ [mark]) ids)
  obtain ⟨tt,s,hwhole⟩ := Parser.program_ok n n (.ofTokens (ts ++ us ++ [final]) ids)
  obtain ⟨hss,herrors,hids⟩ := parse_of_run (.append_mark hmark hts) hn.1 (Nat.le_of_lt hn.1) ids rfl rfl hfirst
  obtain ⟨htt,herrors',hids'⟩ := parse_of_run (.append_mark hfinal (List.forall_mem_append.mpr ⟨hts,hus⟩))
    (Nat.lt_succ_self _) (Nat.le_succ _) ids rfl rfl hwhole
  have hfound : first.errors = r.errors.reverse := herrors.symm
  rcases Parser.declarations_seam hbeside hn.1 hn.2.2.1 hn.2.2.2 hfirst hwhole with
    ⟨e,hmem,hexcluded⟩ | ⟨s₁,left,vv,hseam,hleft,hvv,rfl⟩
  · have hmem' : e ∈ first.errors := hfound ▸ List.mem_reverse.mpr hmem
    rcases hexcluded with hnone | hatEnd
    · exact absurd hmem' (hnone ▸ List.not_mem_nil)
    · rw [hend e hmem'] at hatEnd
      cases hatEnd
  · obtain ⟨hvv',herrors₂,hids₂⟩ := parse_of_run (.append_mark hfinal hus) hn.2.1 hleft first.ids
      hseam.second (hseam.allocated.trans hids.symm) hvv
    refine ⟨?_,?_,congrArg ExprIds.mk (hids'.trans hids₂.symm)⟩
    · rw [htt,hss,hvv']
    · have hwholeErrors : whole.errors = s.errors.reverse := herrors'.symm
      rw [hwholeErrors,herrors₂,hseam.errors,hfound]

theorem Parsed.result_eq_ok {p : Parsed} {ss : List Stmt} :
    p.result = .ok ss ↔ p.errors = [] ∧ p.statements = ss := by
  rw [result]
  split
  next h => simpa using fun _ => List.isEmpty_iff.mp h
  next h => simpa using fun hnone => absurd (List.isEmpty_iff.mpr hnone) h

/-- Let the first token list be empty, end in a semicolon or be a program, let no error in it be found at its end,
and let the second list not begin with `else`. Then the errors of both lists together are those of the first
followed by those of the second. So there are none if and only if both lists are programs, and then the statements
are those of the first followed by those of the second up to identities, which are the same, too, if the second
list is given the next ones. -/
theorem parse_composes {ts us : List Token} {mark final : Token} (hts : ∀ t ∈ ts, t.kind ≠ .eof)
    (hus : ∀ t ∈ us, t.kind ≠ .eof) (hmark : mark.kind = .eof) (hfinal : final.kind = .eof) {ids ids' : ExprIds}
    (hboundary : ts = [] ∨ (∃ t, ts.getLast? = some t ∧ t.kind = .semicolon) ∨
      ∃ ss, (parse (ts ++ [mark]) ids).result = .ok ss)
    (hend : ∀ e ∈ (parse (ts ++ [mark]) ids).errors, e.isAtEnd = false) (helse : ∀ t ∈ us.head?, t.kind ≠ .kwElse) :
    let first := parse (ts ++ [mark]) ids
    let second := parse (us ++ [final]) ids'
    let whole := parse (ts ++ us ++ [final]) ids
    whole.errors = first.errors ++ second.errors ∧
      (∀ program, whole.result = .ok program → ∃ ss tt, first.result = .ok ss ∧ second.result = .ok tt) ∧
      ∀ ss tt, first.result = .ok ss → second.result = .ok tt → ∃ tt', whole.result = .ok (ss ++ tt') ∧
        Stmt.ListAlike .shape tt tt' ∧ (ids' = first.ids → tt' = tt) := by
  intro first second whole
  have hboundary' : first.errors = [] ∨ ∀ t ∈ ts.getLast?, t.kind = .semicolon := by
    rcases hboundary with rfl | ⟨t,ht,hkind⟩ | ⟨ss,hss⟩
    · exact .inr (by simp)
    · exact .inr (by simpa [ht] using hkind)
    · exact .inl (Parsed.result_eq_ok.mp hss).1
  obtain ⟨hstatements,herrors,-⟩ := parse_append hts hus hmark hfinal hboundary' hend helse
  obtain ⟨hsame,hshape⟩ := parse_shape (us ++ [final]) ids' first.ids
  have hwhole : whole.errors = first.errors ++ second.errors := herrors.trans (congrArg (first.errors ++ ·) hsame)
  refine ⟨hwhole,fun program hprogram => ?_,fun ss tt hss htt => ?_⟩
  · have hnone := (Parsed.result_eq_ok.mp hprogram).1
    rw [hwhole,List.append_eq_nil_iff] at hnone
    exact ⟨_,_,Parsed.result_eq_ok.mpr ⟨hnone.1,rfl⟩,Parsed.result_eq_ok.mpr ⟨hnone.2,rfl⟩⟩
  · obtain ⟨hfirstNone,rfl⟩ := Parsed.result_eq_ok.mp hss
    obtain ⟨hsecondNone,rfl⟩ := Parsed.result_eq_ok.mp htt
    refine ⟨_,Parsed.result_eq_ok.mpr ⟨by rw [hwhole,hfirstNone,hsecondNone]; rfl,hstatements⟩,hshape,fun hids => ?_⟩
    rw [← hids]

/-- In `) ;` and `print ;` there is an error each. -/
theorem parse_composes_errors :
    let mark (kind : Kind) : Token := ⟨kind,kind.name,1⟩
    let ts := [mark .rightParen,mark .semicolon]
    let us := [mark .kwPrint,mark .semicolon]
    (parse (ts ++ [.eof 1]) ⟨0⟩).errors = [.syntactic .expectedExpression (mark .rightParen)] ∧
      (parse (us ++ [.eof 1]) ⟨0⟩).errors = [.syntactic .expectedExpression (mark .semicolon)] ∧
      (parse (ts ++ us ++ [.eof 1]) ⟨0⟩).errors = [.syntactic .expectedExpression (mark .rightParen),
        .syntactic .expectedExpression (mark .semicolon)] := by
  intro mark ts us
  have hts : ∀ t ∈ ts, t.kind ≠ .eof := by simp [ts,mark]
  have hus : ∀ t ∈ us, t.kind ≠ .eof := by simp [us,mark]
  have hmark : (Token.eof 1).kind = .eof := rfl
  have hfirst : (parse (ts ++ [.eof 1]) ⟨0⟩).errors = [.syntactic .expectedExpression (mark .rightParen)] := rfl
  have hend : ∀ e ∈ (parse (ts ++ [.eof 1]) ⟨0⟩).errors, e.isAtEnd = false := by
    rw [hfirst]
    simp [Error.isAtEnd,Token.isEof,mark]
  have hsecond : (parse (us ++ [.eof 1]) ⟨0⟩).errors = [.syntactic .expectedExpression (mark .semicolon)] := rfl
  have h : (parse (ts ++ us ++ [.eof 1]) ⟨0⟩).errors =
      (parse (ts ++ [.eof 1]) ⟨0⟩).errors ++ (parse (us ++ [.eof 1]) ⟨0⟩).errors :=
    (parse_composes hts hus hmark hmark (.inr (.inl ⟨mark .semicolon,rfl,rfl⟩)) hend (by simp [us,mark])).1
  rw [hfirst,hsecond] at h
  exact ⟨hfirst,hsecond,h⟩

end Lox

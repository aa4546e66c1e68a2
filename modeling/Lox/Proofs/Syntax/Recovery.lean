import Lox.Proofs.Syntax.Omission.Statement
import Lox.Proofs.Syntax.Progress

/-! What is found when a semicolon in front of a closing brace is left out of an accepted program. -/
namespace Lox
namespace Parser

theorem parse_found_of_lt {tokens : List Token} {n : Nat} (h : Ended tokens) (hn : tokens.length < n) (ids : ExprIds) :
    (parse tokens ids).errors = (found (program n (.ofTokens tokens ids))).reverse := by
  have hpaired : Reader.Paired [] (.ofTokens tokens ids) (.ofTokens tokens ids) := .self h
  have hrun := program_steady (Nat.lt_succ_self _) hn hpaired (Nat.le_refl _)
  rw [parse_found,(hrun.found rfl rfl).1]

theorem Rejoined.found {α : Type} {c : Omission} {x y : EStateM.Result Error Reader α} (h : Rejoined c [] [] x y) :
    ∃ fault, SyntaxFault.isFatal fault ∧ (found x).reverse = .syntactic fault c.brace :: (found y).reverse := by
  cases h with
  | @ok fault new a b r s hfault hr hs => exact ⟨fault,hfault,by simp [Parser.found,hr,hs]⟩
  | @error fault new e r s hfault hr hs => exact ⟨fault,hfault,by simp [Parser.found,hr,hs]⟩

theorem program_staged {c : Omission} {k n : Nat} (hn : k < n) : Staged c k False True (program n) := by
  have hround := declaration_round (c := c) (innerStatement_declaration_staged hn).2 hn
  exact manyUntil_staged (by simp) (by simp) (by simp) hround (Nat.le_of_lt hn)

/-- A program that is accepted is read to its end, so the semicolon is not ahead of the parse any more. -/
theorem program_rejoined {c : Omission} {ts : List Token} {n : Nat} (hended : Ended (c.whole ts))
    (hn : (c.whole ts).length < n) {ids : ExprIds} (h : found (program n (.ofTokens (c.whole ts) ids)) = []) :
    Rejoined c [] [] (program n (.ofTokens (c.broken ts) ids)) (program n (.ofTokens (c.mended ts) ids)) := by
  generalize hrun : program n (.ofTokens (c.whole ts) ids) = x at h
  cases x with
  | error e r => cases h
  | ok statements r =>
    have hstage := program_staged hn |>.cut ts (Nat.le_refl _) rfl hended hrun (congrArg List.length h)
    cases hstage with
    | @ahead us later hsplit hrest =>
      have hlater : Ended (c.whole later) := hended.of_suffix (c.whole_suffix hsplit) c.whole_ne_nil
      have hexit := manyUntil_exit (by simp) (innerStatement_declaration_steady hn hn).2 (Nat.le_of_lt hn) hended
        (Nat.le_refl _) hrun
      have heof : r.next.kind = .eof := by simpa using hexit
      exact absurd (hrest ▸ heof) (c.whole_next hlater)
    | blocked hb => exact hb.elim
    | rejoined _ hrejoined => exact hrejoined [] _ [] _

end Parser

/-- If a semicolon in front of a closing brace of an accepted program is left out, the brace is the first error,
and from there on the errors are those of the program in which the semicolon is followed by an empty block, which
uses up that brace, and by what comes from the next statement boundary behind it. So there is one error only if
the blocks of that program close without the brace. -/
theorem omitted_semicolon {before behind : List Token} {semicolon brace opening mark : Token}
    (hsemicolon : semicolon.kind = .semicolon) (hbrace : brace.kind = .rightBrace)
    (hopening : opening.kind = .leftBrace) (hmark : mark.kind = .eof) (hbefore : ∀ t ∈ before, t.kind ≠ .eof)
    (hbehind : ∀ t ∈ behind, t.kind ≠ .eof) {ids : ExprIds} {statements : List Stmt}
    (h : (parse (before ++ semicolon :: brace :: (behind ++ [mark])) ids).result = .ok statements) :
    let broken := before ++ brace :: (behind ++ [mark])
    let mended := before ++ semicolon :: opening :: brace :: Parser.boundary brace (behind ++ [mark])
    (∃ fault, SyntaxFault.isFatal fault ∧
      (parse broken ids).errors = .syntactic fault brace :: (parse mended ids).errors) ∧
    ((parse broken ids).errors.length = 1 ↔ (parse mended ids).errors = []) := by
  intro broken mended
  let c : Omission := ⟨semicolon,brace,opening,behind ++ [mark],hsemicolon,hbrace,hopening,.append_mark hmark hbehind⟩
  have hwhole : Ended (c.whole before) := c.whole_ended hbefore
  have herrors : (parse (c.whole before) ids).errors = [] := by
    simp only [Parsed.result] at h
    split at h
    next hnone => exact List.isEmpty_iff.mp hnone
    next => cases h
  -- A budget for all three lists, the longest of which is the mended one.
  let n := (c.whole before).length + 2
  have hn : (c.whole before).length < n := by omega
  rw [Parser.parse_found_of_lt hwhole hn] at herrors
  have hrejoined := Parser.program_rejoined hwhole hn (List.reverse_eq_nil_iff.mp herrors)
  obtain ⟨fault,hfault,hfound⟩ := hrejoined.found
  rw [← Parser.parse_found_of_lt (c.broken_ended hbefore) (Nat.lt_trans c.broken_length_lt hn),
    ← Parser.parse_found_of_lt (c.mended_ended hbefore) (Nat.lt_succ_of_le c.mended_length_le)] at hfound
  have hfirst : (parse broken ids).errors = .syntactic fault brace :: (parse mended ids).errors := hfound
  refine ⟨⟨fault,hfault,hfirst⟩,?_⟩
  rw [hfirst,List.length_cons,Nat.add_eq_right,List.length_eq_zero_iff]

/-- In `{ a }` the brace is blamed and passed over, and then another one is missing at the end. -/
theorem omitted_semicolon_block :
    let mark (kind : Kind) : Token := ⟨kind,kind.name,1⟩
    let broken := [mark .leftBrace,mark .identifier,mark .rightBrace,.eof 1]
    let mended := [mark .leftBrace,mark .identifier,mark .semicolon,mark .leftBrace,mark .rightBrace,.eof 1]
    (parse broken ⟨0⟩).errors = [.syntactic (.expected .expressionEnd) (mark .rightBrace),
      .syntactic (.expected .blockEnd) (.eof 1)] ∧
    ∃ fault, SyntaxFault.isFatal fault ∧
      (parse broken ⟨0⟩).errors = .syntactic fault (mark .rightBrace) :: (parse mended ⟨0⟩).errors := by
  intro mark broken mended
  have hbefore : ∀ t ∈ [mark .leftBrace,mark .identifier], t.kind ≠ .eof := by simp [mark]
  have hbehind : ∀ t ∈ ([] : List Token), t.kind ≠ .eof := by simp
  have h := @omitted_semicolon [mark .leftBrace,mark .identifier] [] (mark .semicolon) (mark .rightBrace)
    (mark .leftBrace) (.eof 1) rfl rfl rfl rfl hbefore hbehind ⟨0⟩ _ rfl
  exact ⟨rfl,h.1⟩

end Lox

import Lox.Proofs.Syntax.Completeness
import Lox.Proofs.Syntax.Foresight.Statement

/-! The first fatal syntax error is at the first token with which no program goes on. -/
namespace Lox

namespace Ended

theorem behind {us later : List Token} {t : Token} (h : Ended (us ++ t :: later)) : Ended (t :: later) :=
  h.of_suffix (List.suffix_append us (t :: later)) (List.cons_ne_nil t later)

theorem before {us later : List Token} {t : Token} (h : Ended (us ++ t :: later)) : ∀ u ∈ us, u.kind ≠ .eof := by
  induction us with
  | nil => simp
  | cons u us ih =>
    have hu : u.kind ≠ .eof := fun heof => List.append_ne_nil_of_right_ne_nil us (List.cons_ne_nil t later)
      (h.nothing_behind heof)
    exact List.forall_mem_cons.mpr ⟨hu,ih (h.tail hu)⟩

end Ended

namespace Relaxed

/-- The tokens are a prefix of some program. -/
def Viable (ts : List Token) : Prop := ∃ z, Program (ts ++ z)

variable {ts us z : List Token} {t mark : Token}

/-- Programs in front of an end mark. -/
abbrev whole : Future := (Pattern.rule .program).before .done

theorem append_mark_mem (hmark : mark.kind = .eof) : ts ++ [mark] ∈ whole ↔ Program ts := by
  constructor
  · rintro ⟨us,_,heq,hus,final,-,rfl⟩
    obtain ⟨rfl,-⟩ := List.append_inj' heq rfl
    exact hus
  · exact fun h => Pattern.mem_before h ⟨mark,hmark,rfl⟩

/-- Tokens that are not the end mark are a prefix of a program if they can be followed by anything. -/
theorem viable_of_mem (hts : ∀ t ∈ ts, t.kind ≠ .eof) (h : ts ++ z ∈ whole) : Viable ts := by
  obtain ⟨us,_,heq,hus,final,hfinal,rfl⟩ := h
  rcases List.eq_nil_or_concat z with rfl | ⟨z,last,rfl⟩
  · rw [List.append_nil] at heq
    exact absurd hfinal (hts final (by simp [heq]))
  · rw [List.concat_eq_append,← List.append_assoc] at heq
    obtain ⟨rfl,-⟩ := List.append_inj' heq rfl
    exact ⟨z,hus⟩

theorem not_viable (h : ∀ z, us ++ t :: z ∉ whole) : ¬Viable (us ++ [t]) := by
  rintro ⟨z,hz⟩
  refine h (z ++ [.eof 1]) ?_
  rw [← List.cons_append,← List.append_assoc,append_mark_mem rfl]
  simpa using hz

end Relaxed

namespace Parser

open Relaxed

theorem program_foresees {k n : Nat} (hn : k < n) : Foresees k whole .done (program n) := by
  have hdone : Future.done.BeginsWith [.eof] := by
    rintro t z ⟨mark,hmark,heq⟩
    obtain ⟨rfl,-⟩ := List.cons.inj heq
    simpa using hmark
  rw [whole,Pattern.rule_before]
  exact declarations_foresees (by simp) (by simp) (innerStatement_declaration_foresees (Nat.le_sub_one_of_lt hn)).2
    (innerStatement_declaration_steady hn hn).2 hdone (Nat.le_of_lt hn)

theorem Clean.find? {errors : List Error} (h : Clean errors) : errors.reverse.find? Error.isFatal = none :=
  List.find?_eq_none.mpr fun e he => by simp [h e (List.mem_reverse.mp he)]

theorem FirstFatal.find? {t : Token} {errors : List Error} (h : FirstFatal t errors) :
    ∃ fault, errors.reverse.find? Error.isFatal = some (.syntactic fault t) := by
  obtain ⟨newer,fault,older,rfl,hfault,hclean⟩ := h
  refine ⟨fault,?_⟩
  rw [List.reverse_append,List.reverse_cons,List.append_assoc,List.find?_append,hclean.find?]
  simp [Error.isFatal,hfault]

variable {ts : List Token} {mark : Token}

/-- The parse of a whole list either comes to its end mark or stops at the first token that cannot come. -/
theorem parse_foreseen (ids : ExprIds) (hts : ∀ t ∈ ts, t.kind ≠ .eof) (hmark : mark.kind = .eof) :
    (parse (ts ++ [mark]) ids).errors.find? Error.isFatal = none ∧ Program ts ∨
    ∃ fault before t behind, (parse (ts ++ [mark]) ids).errors.find? Error.isFatal = some (.syntactic fault t) ∧
      ts ++ [mark] = before ++ t :: behind ∧ (∃ z, before ++ z ∈ whole) ∧ ∀ z, before ++ t :: z ∉ whole := by
  have hended : Ended (ts ++ [mark]) := .append_mark hmark hts
  have hlt := Nat.lt_succ_self (ts ++ [mark]).length
  have hrun := (program_foresees hlt).sees (r := .ofTokens (ts ++ [mark]) ids) hended (Nat.le_refl _)
    fun e he => absurd he List.not_mem_nil
  rw [parse_found]
  generalize hx : program ((ts ++ [mark]).length + 1) (.ofTokens (ts ++ [mark]) ids) = x at hrun
  cases hrun with
  | @clear us a r' hsplit hended' hclean hK hF =>
    -- The loop over the declarations is left at the end mark only.
    have hnext : r'.next.kind = .eof := by
      simpa using manyUntil_exit (by simp) (innerStatement_declaration_steady hlt hlt).2 (Nat.le_of_lt hlt) hended
        (Nat.le_refl _) hx
    obtain ⟨t,later,hlater⟩ := hended'.exists_cons
    have ht : r'.next = t := by simp [Reader.next,hlater]
    have heof : t.kind = .eof := ht ▸ hnext
    obtain rfl := (hlater ▸ hended').nothing_behind heof
    have hprogram : ts ++ [mark] ∈ whole := by
      rw [show ts ++ [mark] = us ++ r'.rest from hsplit,hlater]
      exact hK [t] ⟨t,heof,rfl⟩
    exact .inl ⟨hclean.find?,(append_mark_mem hmark).mp hprogram⟩
  | @stuck us t later _ hsplit hfirst hpossible himpossible =>
    obtain ⟨fault,hfault⟩ := hfirst.find?
    exact .inr ⟨fault,us,t,later,hfault,hsplit,hpossible,himpossible⟩

/-- The programs of the grammar with trees, in which only variables and fields are assigned to and the number of
arguments and parameters is limited. -/
theorem program_of_grammar {i j : Nat} {program : List Stmt} (hts : ∀ t ∈ ts, t.kind ≠ .eof)
    (h : Grammar.Program i ts program j) : Program ts := by
  let tokens := ts ++ [Token.eof 1]
  have hreads := declarations_reads h [Kind.eof] (tokens.length + 1) (tokens.length + 1) [Token.eof 1] (by simp)
    (by simp [tokens]; omega) (by simp [tokens]; omega) (by simp [upcoming,Token.eof])
  obtain ⟨events,hrun⟩ := hreads [] [.parsing,.parserCreated tokens.length]
  have hnone : (parse tokens ⟨i⟩).errors = [] := by
    simp only [parse,tokens] at hrun ⊢
    rw [hrun]
    rfl
  rcases parse_foreseen ⟨i⟩ hts (Eq.refl (Token.eof 1).kind) with ⟨-,hprogram⟩ | ⟨fault,us,t,later,hfind,-⟩
  · exact hprogram
  · rw [hnone] at hfind
    cases hfind

end Parser

open Relaxed

/-- The tokens in front of the first fatal error are a prefix of a program, and with the token at which it is found
they are not, which for the end mark means that they are not a program themselves. If there is no fatal error,
they are a program. -/
theorem first_fatal_error {ts : List Token} {mark : Token} (hts : ∀ t ∈ ts, t.kind ≠ .eof) (hmark : mark.kind = .eof)
    (ids : ExprIds) :
    (∀ e, (parse (ts ++ [mark]) ids).errors.find? Error.isFatal = some e →
      ∃ fault before t behind, e = .syntactic fault t ∧ ts ++ [mark] = before ++ t :: behind ∧ Viable before ∧
        (t.kind ≠ .eof → ¬Viable (before ++ [t])) ∧ (t.kind = .eof → before = ts ∧ ¬Program ts)) ∧
    ((parse (ts ++ [mark]) ids).errors.find? Error.isFatal = none → Program ts) := by
  have hended : Ended (ts ++ [mark]) := .append_mark hmark hts
  rcases Parser.parse_foreseen ids hts hmark with ⟨hnone,hprogram⟩ |
    ⟨fault,before,t,behind,hfind,hsplit,⟨z,hz⟩,himpossible⟩
  · rw [hnone]
    exact ⟨fun e he => absurd he.symm (Option.some_ne_none e),fun _ => hprogram⟩
  · rw [hfind]
    rw [hsplit] at hended
    refine ⟨fun e he => ⟨fault,before,t,behind,(Option.some.inj he).symm,hsplit,viable_of_mem hended.before hz,
      fun _ => not_viable himpossible,fun ht => ?_⟩,fun hnone => absurd hnone (Option.some_ne_none _)⟩
    obtain rfl := hended.behind.nothing_behind ht
    obtain ⟨rfl,-⟩ := List.append_inj' hsplit rfl
    exact ⟨rfl,fun hprogram => himpossible [] ((append_mark_mem ht).mpr hprogram)⟩

/-- In `a ? b ;` the semicolon is the first token that cannot come. -/
theorem first_fatal_error_colon :
    let name (text : String) : Token := ⟨.identifier,text,1⟩
    let mark (kind : Kind) : Token := ⟨kind,kind.name,1⟩
    let before := [name "a",mark .question,name "b"]
    (parse (before ++ [mark .semicolon] ++ [.eof 1]) ⟨0⟩).errors.find? Error.isFatal =
        some (.syntactic (.expected .ternaryElse) (mark .semicolon)) ∧
      Viable before ∧ ¬Viable (before ++ [mark .semicolon]) := by
  intro name mark before
  have hts : ∀ t ∈ before ++ [mark .semicolon], t.kind ≠ .eof := by simp [before,name,mark]
  have hfind : (parse (before ++ [mark .semicolon] ++ [.eof 1]) ⟨0⟩).errors.find? Error.isFatal =
    some (.syntactic (.expected .ternaryElse) (mark .semicolon)) := rfl
  obtain ⟨fault,us,t,later,he,hsplit,hviable,himpossible,-⟩ :=
    (first_fatal_error hts rfl ⟨0⟩).1 _ hfind
  obtain rfl : mark .semicolon = t := (Error.syntactic.inj he).2
  have hus : us = before := by
    rcases us with _ | ⟨_,_ | ⟨_,_ | ⟨_,_ | ⟨_,_ | ⟨_,us⟩⟩⟩⟩⟩ <;> simp_all [before,name,mark,Token.eof]
  subst hus
  exact ⟨hfind,hviable,himpossible (by simp [mark])⟩

end Lox

import Lox.Proofs.Token.Lexeme

/-! The scanner is a longest-match lexer: its output is the one of a declarative specification. -/
namespace Lox

/-- A lexeme at the front of a text, with no longer one at the front of it. -/
structure Longest (kind : Kind) (lexeme text : List Char) : Prop where
  isLexeme : Lexeme kind lexeme
  front : lexeme <+: text
  longest : ∀ (kind' : Kind) (other : List Char), Lexeme kind' other → other <+: text → other.length ≤ lexeme.length

/-- No lexeme is at the front of a text. -/
def Lexemeless (text : List Char) : Prop := ∀ kind lexeme, Lexeme kind lexeme → ¬ lexeme <+: text

/-- The items of a text that begins on a line. -/
inductive Lexes : Nat → List Char → List Item → Prop
  | done {line : Nat} : Lexes line [] [.token (.eof line)]
  | blank {line : Nat} {c : Char} {rest : List Char} {items : List Item} : c ∈ [' ','\r','\t','\n'] →
    Lexes (line + [c].count '\n') rest items → Lexes line (c :: rest) items
  | comment {line : Nat} {body rest : List Char} {items : List Item} : '\n' ∉ body → (∀ c ∈ rest.head?, c = '\n') →
    Lexes line rest items → Lexes line ('/' :: '/' :: (body ++ rest)) items
  | token {line : Nat} {kind : Kind} {lexeme rest : List Char} {items : List Item} :
    ¬ ['/','/'] <+: lexeme ++ rest → Longest kind lexeme (lexeme ++ rest) →
    Lexes (line + lexeme.count '\n') rest items →
    Lexes line (lexeme ++ rest) (.token ⟨kind,String.ofList lexeme,line + lexeme.count '\n'⟩ :: items)
  | unterminated {line : Nat} {contents : List Char} : Lexemeless ('"' :: contents) → Lexes line ('"' :: contents)
    [.error (.lexical .unterminatedString line),.token (.eof (line + contents.count '\n'))]
  | unexpected {line : Nat} {c : Char} {rest : List Char} {items : List Item} : c ∉ [' ','\r','\t','\n'] → c ≠ '"' →
    Lexemeless (c :: rest) → Lexes line rest items →
    Lexes line (c :: rest) (.error (.lexical (.unexpected c) line) :: items)

section First

variable {c : Char} {cs text others : List Char} {kind : Kind} {p : Piece}

open Piece (Leads First)

theorem Piece.Leads.not_comment (h : Leads c cs kind text others) : ¬ ['/','/'] <+: c :: cs := by
  rintro ⟨rest,heq⟩
  obtain ⟨rfl,rfl⟩ := List.cons_eq_cons.mp heq
  have hsame := (First.token h).unique (.comment rfl rfl)
  cases hsame.1

theorem Piece.First.cover (h : First c cs p others) : p.text ++ others = c :: cs := by
  have hcover := Piece.first_append c cs
  rwa [h.eq] at hcover

theorem Piece.Leads.longest (h : Leads c cs kind text others) : Longest kind text (c :: cs) where
  isLexeme := h.lexeme
  front := ⟨others,(First.token h).cover⟩
  longest kind' other hother hfront := by
    obtain ⟨_,_,_,h',hle,-⟩ := hother.first hfront h.not_comment
    cases ((First.token h).unique (.token h')).1
    exact hle

/-- The longest lexeme at the front of a text is its first piece. -/
theorem Longest.leads {rest : List Char} (h : Longest kind text (c :: cs)) (hrest : text ++ rest = c :: cs)
    (hcomment : ¬ ['/','/'] <+: c :: cs) : Leads c cs kind text rest := by
  obtain ⟨kind',text',others,hleads,hle,hkind⟩ := h.isLexeme.first h.front hcomment
  have hcover := (First.token hleads).cover
  -- Neither is longer than the other, and both are at the front.
  have hlength := Nat.le_antisymm hle (h.longest kind' text' hleads.lexeme ⟨others,hcover⟩)
  obtain ⟨rfl,rfl⟩ := List.append_inj (hrest.trans hcover.symm) hlength
  rw [hkind rfl]
  exact hleads

theorem Piece.First.lexemeless (h : First c cs p others) (htoken : ∀ kind, p.shape ≠ .token kind)
    (hcomment : p.shape ≠ .comment) : Lexemeless (c :: cs) := by
  intro kind lexeme hlexeme hfront
  by_cases hslash : ['/','/'] <+: c :: cs
  · obtain ⟨rest,heq⟩ := hslash
    obtain ⟨rfl,rfl⟩ := List.cons_eq_cons.mp heq
    exact hcomment (congrArg Piece.shape (h.unique (.comment rfl rfl)).1)
  · obtain ⟨kind',_,_,h',-,-⟩ := hlexeme.first hfront hslash
    exact htoken kind' (congrArg Piece.shape (h.unique (.token h')).1)

/-- What the first piece is where no lexeme is. -/
theorem Lexemeless.first (h : Lexemeless (c :: cs)) :
    c ∈ [' ','\r','\t','\n'] ∨ c = '"' ∧ '"' ∉ cs ∨ First c cs ⟨.stray c,[c]⟩ cs := by
  obtain ⟨p,others,hfirst⟩ : ∃ p others, First c cs p others := ⟨_,_,Piece.first_cases c cs⟩
  cases hfirst with
  | token hleads => exact absurd hleads.longest.front (h _ _ hleads.lexeme)
  | blank h => exact .inl (Piece.isBlank_iff.mp h)
  | comment hslash => exact absurd ⟨cs,by rw [hslash]; rfl⟩ (h .slash ['/'] (.fixed (by simp [fixedLexemes])))
  | unclosed hquote hcs => exact .inr (.inl ⟨hquote,hcs⟩)
  | stray hplain hdigit hname => exact .inr (.inr (.stray hplain hdigit hname))

end First

namespace Piece

/-- The items of the pieces of a text that begins at a point, with the end mark behind them. -/
def items (here : Position) (ps : List Piece) : List Item :=
  (place here ps).filterMap (fun q => q.2.item? q.1) ++ [.token (.eof (ps.foldl Position.advance here).line)]

theorem items_cons (here : Position) (p : Piece) (ps : List Piece) :
    items here (p :: ps) = (p.item? here).toList ++ items (here.advance p) ps := by
  simp only [items,place,List.filterMap_cons,List.foldl_cons]
  cases p.item? here <;> rfl

theorem items_cut {c : Char} {cs others : List Char} {p : Piece} (h : First c cs p others) (here : Position) :
    items here (cut (c :: cs)) = (p.item? here).toList ++ items (here.advance p) (cut others) := by
  rw [cut,h.eq,items_cons]

end Piece

theorem Position.line_advance (here : Position) {p : Piece} (h : '\n' ∉ p.text) :
    (here.advance p).line = here.line := by
  rw [advance,Piece.newlines_eq_zero h]
  rfl

/-- The items of an unclosed string: its error, and the end mark on the last line. -/
theorem items_unclosed (here : Position) (cs : List Char) :
    ((⟨.unclosed,'"' :: cs⟩ : Piece).item? here).toList ++ Piece.items (here.advance ⟨.unclosed,'"' :: cs⟩) [] =
      [.error (.lexical .unterminatedString here.line),.token (.eof (here.line + cs.count '\n'))] := by
  have hcount : ('"' :: cs).count '\n' = cs.count '\n' := List.count_cons_of_ne (by decide)
  rw [← hcount]
  rfl

theorem lexes_cut (here : Position) (cs : List Char) : Lexes here.line cs (Piece.items here (Piece.cut cs)) := by
  fun_induction Piece.cut cs generalizing here with
  | case1 => exact .done
  | case2 c cs ih =>
    have hfirst := Piece.first_cases c cs
    generalize Piece.first c cs = q at ih hfirst
    obtain ⟨p,others⟩ := q
    dsimp only at ih hfirst
    have hlater := ih (here.advance p)
    have hcover := hfirst.cover
    rw [Piece.items_cons]
    cases hfirst with
    | token h => exact hcover ▸ .token (hcover ▸ h.not_comment) (hcover ▸ h.longest) hlater
    | blank h => exact .blank (Piece.isBlank_iff.mp h) hlater
    | @comment rest h hcs =>
      rw [here.line_advance (by simpa using (Piece.split_newline rest).1)] at hlater
      exact hcover ▸ .comment (Piece.split_newline rest).1 (Piece.split_newline rest).2 hlater
    | unclosed h hcs =>
      have hlexemeless := (Piece.First.unclosed h hcs).lexemeless (by simp) (by simp)
      subst h
      rw [Piece.cut,items_unclosed]
      exact .unterminated hlexemeless
    | stray h hdigit hname =>
      have hlexemeless := (@Piece.First.stray c cs h hdigit hname).lexemeless (by simp) (by simp)
      rw [here.line_advance (by simpa using h.ne_newline.symm)] at hlater
      exact .unexpected h.not_mem h.quote hlexemeless hlater

theorem items_of_lexes {line : Nat} {cs : List Char} {items : List Item} (h : Lexes line cs items) (here : Position)
    (hline : here.line = line) : items = Piece.items here (Piece.cut cs) := by
  induction h generalizing here with
  | done =>
    subst hline
    rw [Piece.cut]
    rfl
  | @blank line c rest items h hrest ih =>
    subst hline
    rw [Piece.items_cut (.blank (Piece.isBlank_iff.mpr h))]
    exact ih (here.advance ⟨.blank,[c]⟩) rfl
  | @comment line body rest items hbody hnext hrest ih =>
    subst hline
    rw [Piece.items_cut (.comment rfl rfl),(Piece.span_newline hbody hnext).1,(Piece.span_newline hbody hnext).2]
    exact ih _ (here.line_advance (by simpa using hbody))
  | @token line kind lexeme rest items hcomment hlongest hrest ih =>
    subst hline
    obtain ⟨c,cs,hcs⟩ : ∃ c cs, lexeme ++ rest = c :: cs :=
      List.exists_cons_of_ne_nil (by simp [hlongest.isLexeme.ne_nil])
    rw [hcs] at hlongest hcomment ⊢
    rw [Piece.items_cut (.token (hlongest.leads hcs hcomment)),← ih (here.advance ⟨.token kind,lexeme⟩) rfl]
    rfl
  | @unterminated line contents h =>
    subst hline
    obtain hblank | ⟨-,hcs⟩ | hstray := h.first
    · simp at hblank
    · rw [Piece.items_cut (.unclosed rfl hcs),Piece.cut,items_unclosed]
    · cases hstray with
      | stray hplain => exact absurd rfl hplain.quote
  | @unexpected line c rest items hblank hquote h hrest ih =>
    subst hline
    obtain hb | ⟨hq,-⟩ | hstray := h.first
    · exact absurd hb hblank
    · exact absurd hq hquote
    · have hnewline : '\n' ∉ [c] := fun hmem => hblank (by simp [← List.mem_singleton.mp hmem])
      rw [Piece.items_cut hstray,← ih _ (here.line_advance hnewline)]
      rfl

/-- The scanner is a longest-match lexer. -/
theorem scan_longest (source : String) (items : List Item) :
    Lexes 1 source.toList items ↔ items = (scan source).items :=
  ⟨fun h => items_of_lexes h .start rfl,fun h => h ▸ lexes_cut .start source.toList⟩

end Lox

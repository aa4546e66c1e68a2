import Lox.Proofs.Token.Longest

/-! Lexemes that are written down with blanks and comments between them are scanned back, each as it was written. -/
namespace Lox

/-- Blanks and comments with the newline behind them, in any order. -/
inductive Filler : List Char → Prop
  | none : Filler []
  | blank {c : Char} {rest : List Char} : c ∈ [' ','\r','\t','\n'] → Filler rest → Filler (c :: rest)
  | comment {body rest : List Char} : '\n' ∉ body → Filler rest → Filler ('/' :: '/' :: (body ++ '\n' :: rest))

/-- What may stand between two lexemes. A comment does not begin it, as `/` could be the lexeme in front. -/
inductive Separator : List Char → Prop
  | mk {c : Char} {rest : List Char} : c ∈ [' ','\r','\t','\n'] → Filler rest → Separator (c :: rest)

namespace Token

/-- The text of some tokens, each with a separator behind it. -/
def print : List (Token × String) → String
  | [] => ""
  | (t,separator) :: ts => t.lexeme ++ separator ++ print ts

/-- The same tokens in a text that begins on a line, with the end mark behind them: each has the line it ends on. -/
def printed (line : Nat) : List (Token × String) → List Token
  | [] => [.eof line]
  | (t,separator) :: ts =>
    let last := line + t.lexeme.toList.count '\n'
    { t with line := last } :: printed (last + separator.toList.count '\n') ts

end Token

namespace Piece

variable {b : Char} {front rest : List Char}

/-- A class of characters ends in front of the first character that is not in it. -/
theorem span_front {p : Char → Bool} (hfront : ∀ d ∈ front, p d) (hb : p b = false) (rest : List Char) :
    (front ++ b :: rest).takeWhile p = front ∧ (front ++ b :: rest).dropWhile p = b :: rest := by
  rw [List.takeWhile_append_of_pos hfront,List.dropWhile_append_of_pos hfront]
  simp [hb]

theorem not_digit_of_blank (hb : b ∈ [' ','\r','\t','\n']) : b.isDigit = false :=
  Bool.eq_false_iff.mpr fun hdigit => (plain_digit hdigit).not_mem hb

theorem not_name_of_blank (hb : b ∈ [' ','\r','\t','\n']) : isNameRest b = false :=
  Bool.eq_false_iff.mpr fun hname => (plain_of (p := isNameRest) (by decide) hname).not_mem hb

theorem spanNumber_integer {digits : List Char} (h : ∀ d ∈ digits, d.isDigit) (hb : b ∈ [' ','\r','\t','\n']) :
    spanNumber (digits ++ b :: rest) = (digits,b :: rest) := by
  have hdot : b ≠ '.' := by
    rintro rfl
    simp at hb
  obtain ⟨htake,hdrop⟩ := span_front h (not_digit_of_blank hb) rest
  unfold spanNumber
  rw [htake,hdrop]
  simp [hdot]

theorem spanNumber_decimal {whole fraction : List Char} (hwhole : ∀ d ∈ whole, d.isDigit) (hne : fraction ≠ [])
    (hfraction : ∀ d ∈ fraction, d.isDigit) (hb : b ∈ [' ','\r','\t','\n']) :
    spanNumber (whole ++ '.' :: (fraction ++ b :: rest)) = (whole ++ '.' :: fraction,b :: rest) := by
  obtain ⟨d,ds,rfl⟩ := List.exists_cons_of_ne_nil hne
  have hd := hfraction d List.mem_cons_self
  obtain ⟨htake,hdrop⟩ := span_front hwhole (show Char.isDigit '.' = false from rfl) (d :: ds ++ b :: rest)
  obtain ⟨htake',hdrop'⟩ := span_front hfraction (not_digit_of_blank hb) rest
  rw [List.cons_append] at htake hdrop htake' hdrop'
  unfold spanNumber
  rw [List.cons_append,htake,hdrop]
  simp only [hd,if_true,htake',hdrop']

end Piece

/-! ### Lexemes in front of a blank -/

section Blank

open Piece (Leads)

variable {b c : Char} {cs text rest : List Char} {kind : Kind}

theorem leads_fixed (h : (text,kind) ∈ fixedLexemes) (hb : b ∈ [' ','\r','\t','\n']) (hcs : text ++ b :: rest = c :: cs) :
    Leads c cs kind text (b :: rest) := by
  have hequal : (b :: rest).head? ≠ some '=' := by
    rw [List.head?_cons]
    rintro ⟨⟩
    simp at hb
  have hslash : (b :: rest).head? ≠ some '/' := by
    rw [List.head?_cons]
    rintro ⟨⟩
    simp at hb
  obtain ⟨d,rfl,hd⟩ | ⟨d,other,rfl,hd⟩ | ⟨d,other,rfl,hd⟩ | ⟨rfl,rfl⟩ := fixed_cases _ h
  all_goals obtain ⟨rfl,rfl⟩ := List.cons_eq_cons.mp hcs
  · exact .punctuator hd
  · exact .short hd hequal
  · exact .long hd rfl
  · exact .slash rfl hslash

theorem leads_number (hc : c.isDigit) (hcs : text ++ b :: rest = c :: cs)
    (hspan : Piece.spanNumber (text ++ b :: rest) = (text,b :: rest)) :
    Leads c cs (.number (Piece.numberValue text)) text (b :: rest) := by
  have hnumber : Leads c cs _ _ _ := .number (Piece.plain_digit hc) hc
  rwa [← hcs,hspan] at hnumber

theorem leads_word (h : Piece.isWord text) (hb : b ∈ [' ','\r','\t','\n']) (hcs : text ++ b :: rest = c :: cs) :
    Leads c cs (Kind.ofWord (String.ofList text)) text (b :: rest) := by
  cases text with
  | nil => cases h
  | cons d ds =>
    obtain ⟨rfl,rfl⟩ := List.cons_eq_cons.mp hcs
    obtain ⟨hd,hds⟩ := (Bool.and_eq_true _ _).mp h
    obtain ⟨htake,hdrop⟩ := Piece.span_front (List.all_eq_true.mp hds) (Piece.not_name_of_blank hb) rest
    have hword : Leads d (ds ++ b :: rest) _ _ _ := .word (Piece.plain_name hd) (Piece.not_digit_of_name hd) hd
    rwa [htake,hdrop] at hword

/-- A lexeme in front of a blank is the first piece. -/
theorem Lexeme.leads (h : Lexeme kind text) (hb : b ∈ [' ','\r','\t','\n']) (hcs : text ++ b :: rest = c :: cs) :
    Leads c cs kind text (b :: rest) := by
  cases h with
  | fixed h => exact leads_fixed h hb hcs
  | string h =>
    obtain ⟨rfl,rfl⟩ := List.cons_eq_cons.mp hcs
    exact .string rfl (by simp) h
  | integer hne h => exact leads_number (h c (mem_of_front hne hcs)) hcs (Piece.spanNumber_integer h hb)
  | decimal hne h hne' h' =>
    have hc := h c (mem_of_front hne ((List.append_assoc _ _ _).symm.trans hcs))
    refine leads_number hc hcs ?_
    rw [List.append_assoc,List.cons_append]
    exact Piece.spanNumber_decimal h hne' h' hb
  | keyword h =>
    obtain ⟨hword,hkind⟩ := Kind.ofWord_of_mem h
    have hleads := leads_word hword hb hcs
    rwa [String.ofList_toList,hkind] at hleads
  | @identifier d ds hd hds hnot =>
    have hword : Piece.isWord (d :: ds) := (Bool.and_eq_true _ _).mpr ⟨hd,List.all_eq_true.mpr hds⟩
    have hleads := leads_word hword hb hcs
    rwa [Kind.ofWord_of_not_mem hnot] at hleads

end Blank

/-! ### Printed tokens -/

variable {line : Nat} {text rest : List Char} {items : List Item}

theorem Filler.lexes (h : Filler text) (hrest : Lexes (line + text.count '\n') rest items) :
    Lexes line (text ++ rest) items := by
  induction h generalizing line with
  | none => exact hrest
  | @blank c text hc _ ih =>
    refine .blank hc (ih ?_)
    rwa [Nat.add_assoc,← List.count_append,List.singleton_append]
  | @comment body text hbody _ ih =>
    have hcount : ('/' :: '/' :: (body ++ '\n' :: text)).count '\n' = 1 + text.count '\n' := by
      simp [List.count_eq_zero.mpr hbody,Nat.add_comm]
    rw [hcount,← Nat.add_assoc] at hrest
    have hnext : Lexes line ('\n' :: (text ++ rest)) items := .blank (by simp) (ih hrest)
    simp only [List.cons_append,List.append_assoc]
    exact .comment hbody (by simp) hnext

theorem Separator.lexes (h : Separator text) (hrest : Lexes (line + text.count '\n') rest items) :
    Lexes line (text ++ rest) items := by
  obtain ⟨hc,hfiller⟩ := h
  exact (Filler.blank hc hfiller).lexes hrest

/-- A lexeme and the separator behind it are scanned as this one token. -/
theorem Lexeme.lexes {kind : Kind} {lexeme separator : List Char} (h : Lexeme kind lexeme) (hs : Separator separator)
    (hrest : Lexes (line + lexeme.count '\n' + separator.count '\n') rest items) :
    Lexes line (lexeme ++ (separator ++ rest))
      (.token ⟨kind,String.ofList lexeme,line + lexeme.count '\n'⟩ :: items) := by
  have hbehind := hs.lexes hrest
  obtain ⟨b,others,hb,hothers⟩ : ∃ b others, b ∈ [' ','\r','\t','\n'] ∧ separator ++ rest = b :: others := by
    obtain ⟨hb,-⟩ := hs
    exact ⟨_,_,hb,List.cons_append⟩
  obtain ⟨c,cs,hcs⟩ := List.exists_cons_of_ne_nil (List.append_ne_nil_of_left_ne_nil h.ne_nil (separator ++ rest))
  have hleads := h.leads hb (hothers ▸ hcs)
  exact .token (hcs ▸ hleads.not_comment) (hcs ▸ hleads.longest) hbehind

theorem lexes_print {ts : List (Token × String)}
    (h : ∀ q ∈ ts, Lexeme q.1.kind q.1.lexeme.toList ∧ Separator q.2.toList) (line : Nat) :
    Lexes line (Token.print ts).toList ((Token.printed line ts).map .token) := by
  induction ts generalizing line with
  | nil => exact .done
  | cons q ts ih =>
    obtain ⟨t,separator⟩ := q
    obtain ⟨⟨hlexeme,hseparator⟩,hothers⟩ := List.forall_mem_cons.mp h
    have hq : Lexes line _ _ := hlexeme.lexes hseparator (ih hothers _)
    rw [String.ofList_toList] at hq
    rw [Token.print,String.toList_append,String.toList_append,List.append_assoc]
    exact hq

theorem scan_of_lexes {source : String} (h : Lexes 1 source.toList items) : (scan source).items = items :=
  (items_of_lexes h .start rfl).symm

/-- Scanning undoes printing: lexemes with separators between and around them are scanned without an error, each as a
token of its kind and text. -/
theorem scan_print (before : String) (ts : List (Token × String)) (hbefore : Separator before.toList)
    (h : ∀ q ∈ ts, Lexeme q.1.kind q.1.lexeme.toList ∧ Separator q.2.toList) :
    (scan (before ++ Token.print ts)).errors = [] ∧
      (scan (before ++ Token.print ts)).tokens = Token.printed (1 + before.toList.count '\n') ts := by
  have hlexes : Lexes 1 (before ++ Token.print ts).toList _ :=
    String.toList_append ▸ hbefore.lexes (lexes_print h (1 + before.toList.count '\n'))
  simp only [Scan.errors,Scan.tokens,scan_of_lexes hlexes,List.filterMap_map]
  exact ⟨List.filterMap_eq_nil_iff.mpr fun _ _ => rfl,List.filterMap_some⟩

/-- A number, a comment, a string with a comment mark and a newline in it, and two `=` that are not `==`. -/
theorem scan_print_string :
    let contents : List Char := ['/','/','\n','1']
    let ts : List (Token × String) :=
      [(⟨.number (Piece.numberValue ['1']),.ofList ['1'],1⟩,.ofList [' ','/','/','=','\n']),
        (⟨.string (.ofList contents),.ofList ('"' :: (contents ++ ['"'])),1⟩,.ofList ['\t']),
        (⟨.equal,.ofList ['='],1⟩,.ofList [' ']),(⟨.equal,.ofList ['='],1⟩,.ofList ['\r','\n'])]
    Separator [' '] ∧ (∀ q ∈ ts, Lexeme q.1.kind q.1.lexeme.toList ∧ Separator q.2.toList) ∧
      (scan (.ofList [' '] ++ Token.print ts)).errors = [] ∧
        (scan (.ofList [' '] ++ Token.print ts)).tokens = Token.printed 1 ts := by
  intro contents ts
  have hblank {c : Char} (hc : c ∈ [' ','\r','\t','\n']) : Separator [c] := .mk hc .none
  have hfiller : Filler ('/' :: '/' :: (['='] ++ ['\n'])) := .comment (by simp) .none
  have hcomment : Separator [' ','/','/','=','\n'] := .mk (by simp) hfiller
  have hequal : Lexeme .equal ['='] := .fixed (by simp [fixedLexemes])
  have h : ∀ q ∈ ts, Lexeme q.1.kind q.1.lexeme.toList ∧ Separator q.2.toList := by
    simp only [ts,List.forall_mem_cons,String.toList_ofList]
    refine ⟨⟨.integer (by simp) (by simp),hcomment⟩,⟨.string (by decide),hblank (by simp)⟩,⟨hequal,hblank (by simp)⟩,
      ⟨hequal,.mk (by simp) (.blank (by simp) .none)⟩,by simp⟩
  have hfirst : Separator (String.ofList [' ']).toList := by
    rw [String.toList_ofList]
    exact hblank (by simp)
  have hprint := scan_print (.ofList [' ']) ts hfirst h
  simp only [String.toList_ofList] at hprint
  exact ⟨hblank (by simp),h,hprint⟩

end Lox

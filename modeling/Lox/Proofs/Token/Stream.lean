import Lox.Proofs.Token.Cursor
import Lox.Proofs.Token.Words

/-! The stream accounts for each byte and each line of the text, and it ends. -/
namespace Lox

/-- The point behind the first characters of a text: the first line is line 1, and each newline ends one. -/
def Position.behind (passed : List Char) : Position := ⟨1 + passed.count '\n',(utf8 passed).length⟩

theorem Position.advance_behind (passed : List Char) (p : Piece) :
    (behind passed).advance p = behind (passed ++ p.text) := by
  simp [behind,advance,Piece.newlines,Piece.bytes,← length_utf8,Nat.add_assoc]

theorem Position.foldl_advance (passed : List Char) (ps : List Piece) :
    ps.foldl advance (behind passed) = behind (passed ++ ps.flatMap Piece.text) := by
  induction ps generalizing passed with
  | nil => simp
  | cons p ps ih => rw [List.foldl_cons,advance_behind,ih,List.flatMap_cons,List.append_assoc]

/-- Some bytes of a text, from the first one up to the one behind them, with their item. -/
structure Stretch where
  first : Nat
  behind : Nat
  item? : Option Item

/-- The stretch of some characters that others precede. -/
def Stretch.of (passed lexeme : List Char) (item? : Option Item) : Stretch :=
  ⟨(Position.behind passed).byte,(Position.behind (passed ++ lexeme)).byte,item?⟩

/-- Stretches that account for the rest of a text, the first characters of which have been passed. -/
inductive Accounted : List Char → List Char → List Stretch → Prop
  | done {passed : List Char} : Accounted passed [] []
  | token {passed lexeme rest : List Char} {stretches : List Stretch} {kind : Kind} :
    lexeme ≠ [] → kind ≠ .eof → Accounted (passed ++ lexeme) rest stretches →
    Accounted passed (lexeme ++ rest) (.of passed lexeme
      (some (.token ⟨kind,String.ofList lexeme,(Position.behind (passed ++ lexeme)).line⟩)) :: stretches)
  | stray {passed rest : List Char} {stretches : List Stretch} {c : Char} :
    Accounted (passed ++ [c]) rest stretches → Accounted passed ([c] ++ rest) (.of passed [c]
      (some (.error (.lexical (.unexpected c) (Position.behind passed).line))) :: stretches)
  | unclosed {passed contents : List Char} :
    '"' ∉ contents → Accounted passed ('"' :: contents) [.of passed ('"' :: contents)
      (some (.error (.lexical .unterminatedString (Position.behind passed).line)))]
  | blank {passed rest : List Char} {stretches : List Stretch} {c : Char} :
    c ∈ [' ','\r','\t','\n'] → Accounted (passed ++ [c]) rest stretches →
    Accounted passed ([c] ++ rest) (.of passed [c] none :: stretches)
  | comment {passed body rest : List Char} {stretches : List Stretch} :
    '\n' ∉ body → (∀ c ∈ rest.head?, c = '\n') → Accounted (passed ++ '/' :: '/' :: body) rest stretches →
    Accounted passed ('/' :: '/' :: body ++ rest) (.of passed ('/' :: '/' :: body) none :: stretches)

/-- Each piece as the stretch of bytes that it has. -/
def stretches (here : Position) (ps : List Piece) : List Stretch :=
  (place here ps).map fun q => ⟨q.1.byte,(q.1.advance q.2).byte,q.2.item? q.1⟩

theorem stretches_cons (passed : List Char) (p : Piece) (ps : List Piece) :
    stretches (.behind passed) (p :: ps) =
      .of passed p.text (p.item? (.behind passed)) :: stretches (.behind (passed ++ p.text)) ps := by
  simp only [stretches,place,List.map_cons,Stretch.of,Position.advance_behind]

theorem Accounted.piece {passed cs others : List Char} {c : Char} {p : Piece} {kind : Kind} {later : List Stretch}
    (hp : Piece.first c cs = (p,others)) (hshape : p.shape = .token kind)
    (hlater : Accounted (passed ++ p.text) others later) :
    Accounted passed (c :: cs) (.of passed p.text (p.item? (.behind passed)) :: later) := by
  have hcover := Piece.first_append c cs
  have hnonempty := Piece.first_ne_nil c cs
  rw [hp] at hcover hnonempty
  have hitem : p.item? (.behind passed) =
      some (.token ⟨kind,String.ofList p.text,(Position.behind (passed ++ p.text)).line⟩) := by
    simp only [Piece.item?,hshape,Position.advance_behind]
  rw [← hcover,hitem]
  exact .token hnonempty (Piece.kind_first hp hshape).1 hlater

theorem accounted_cut (passed cs : List Char) : Accounted passed cs (stretches (.behind passed) (Piece.cut cs)) := by
  fun_induction Piece.cut cs generalizing passed with
  | case1 => exact .done
  | case2 c cs ih =>
    rw [stretches_cons]
    specialize ih (passed ++ (Piece.first c cs).1.text)
    have hfirst := Piece.first_cases c cs
    generalize hp : Piece.first c cs = q at ih hfirst
    obtain ⟨p,others⟩ := q
    cases hfirst with
    | token => exact .piece hp rfl ih
    | blank h => exact .blank (Piece.isBlank_iff.mp h) ih
    | comment h hcs =>
      have hcover := Piece.first_append c cs
      rw [hp] at hcover
      exact hcover ▸ .comment (Piece.split_newline _).1 (Piece.split_newline _).2 ih
    | unclosed h hcs =>
      subst h
      rw [Piece.cut]
      exact .unclosed hcs
    | stray => exact .stray ih

namespace Cursor

/-- What the loop does, turn by turn, with the stretch that each turn goes over. -/
inductive Turns : Cursor → List Stretch → Cursor → Prop
  | done (c : Cursor) : c.current = c.size → Turns c [] c
  | turn {c c' c'' : Cursor} {item? : Option Item} {later : List Stretch} : c.current < c.size →
    turn c = .ok item? c' → Turns c' later c'' → Turns c (⟨c'.start,c'.current,item?⟩ :: later) c''

theorem turns_cut (passed cs : List Char) {c : Cursor} (hsource : c.source = String.ofList (passed ++ cs))
    (hposition : (⟨c.line,c.current⟩ : Position) = .behind passed) :
    ∃ c', c.Turns (stretches (.behind passed) (Piece.cut cs)) c' ∧ c'.line = (Position.behind (passed ++ cs)).line := by
  fun_induction Piece.cut cs generalizing passed c with
  | case1 =>
    obtain ⟨hline,hcurrent⟩ := Position.mk.inj hposition
    rw [List.append_nil] at hsource ⊢
    exact ⟨c,.done c (by rw [hcurrent,length_utf8,size,hsource]),hline⟩
  | case2 d cs ih =>
    obtain ⟨hline,hcurrent⟩ := Position.mk.inj hposition
    have hcover := Piece.first_append d cs
    have hturn := turn_spanning d cs hsource hcurrent
    have hlt : c.current < c.size := by
      rw [hcurrent,size,hsource,← length_utf8,utf8_append,List.length_append,length_utf8_cons]
      exact Nat.lt_add_of_pos_right (Nat.add_pos_left d.utf8Size_pos _)
    rw [hposition] at hturn
    generalize Piece.first d cs = q at *
    obtain ⟨p,others⟩ := q
    -- The cursor that the turn leaves, from which the later turns go on.
    let behind := spanning passed p.text others (c.line + p.newlines)
    have hbehind : (⟨behind.line,behind.current⟩ : Position) = .behind (passed ++ p.text) := by
      have hline' := congrArg Position.line (Position.advance_behind passed p)
      rw [← hposition] at hline'
      exact congrArg (Position.mk · _) hline'
    obtain ⟨c',hturns,hend⟩ := ih (passed ++ p.text) (c := behind) rfl hbehind
    refine ⟨c',?_,?_⟩
    · rw [stretches_cons]
      exact .turn hlt hturn hturns
    · rw [hend,← hcover,List.append_assoc]

/-- The items of the turns one by one, then the end mark, then nothing any more. -/
theorem drain_turns {c c' : Cursor} {all : List Stretch} (h : c.Turns all c') :
    let last := { c' with current := c'.current + 1 }
    drain c = .ok (all.filterMap Stretch.item? ++ [.token (.eof c'.line)]) last ∧ next last = .ok none last := by
  induction h with
  | done c hend =>
    have hbeyond : next { c with current := c.current + 1 } = .ok none { c with current := c.current + 1 } :=
      next_beyond (Nat.lt_succ_of_le (Nat.le_of_eq hend.symm))
    exact ⟨drain_of_next_some (next_at_end hend) (drain_of_next_none hbeyond),hbeyond⟩
  | @turn c c₁ c' item? later hlt hturn hturns ih =>
    refine ⟨?_,ih.2⟩
    cases item? with
    | none =>
      rw [drain,next_of_turn_none hlt hturn,← drain]
      exact ih.1
    | some item => exact drain_of_next_some (next_of_turn_some hlt hturn) ih.1

end Cursor

/-- Every byte and every line is accounted for. The turns of the stream go over consecutive stretches that cover
the text, each the lexeme of a token, a stray character, an unclosed string, a blank or a comment; the stream never
reaches outside the text or into a character, and it ends with the only end mark. -/
theorem Cursor.stream_accounts (source : String) : ∃ (all : List Stretch) (atEnd last : Cursor),
    let items := all.filterMap Stretch.item? ++ [.token (.eof (Position.behind source.toList).line)]
    Turns (.new source) all atEnd ∧ Accounted [] source.toList all ∧
      drain (.new source) = .ok items last ∧ next last = .ok none last ∧ items = (scan source).items := by
  have hsource : (new source).source = String.ofList ([] ++ source.toList) := String.ofList_toList.symm
  obtain ⟨atEnd,hturns,hline⟩ := turns_cut [] source.toList hsource rfl
  obtain ⟨hdrain,hlast⟩ := drain_turns hturns
  refine ⟨_,atEnd,{ atEnd with current := atEnd.current + 1 },hturns,accounted_cut [] source.toList,?_,hlast,?_⟩
  · rw [hdrain,hline]
    rfl
  · have hlines := Position.foldl_advance [] (Piece.cut source.toList)
    rw [Piece.flatMap_cut] at hlines
    rw [Scan.items,scan,stretches,List.filterMap_map]
    exact congrArg (fun here : Position => _ ++ [Item.token (.eof here.line)]) hlines.symm

end Lox

import Lox.Proofs.Token.Longest
import Mathlib.Data.List.Basic

/-! Texts that are joined by a newline are scanned one after the other: a newline ends each piece except for an
unclosed string, and the items behind it are only on later lines. -/
namespace Lox

/-- The same token on a later line. -/
def Token.down (d : Nat) (t : Token) : Token := { t with line := t.line + d }

/-- The same error on a later line. -/
def Error.down (d : Nat) : Error → Error
  | .lexical fault line => .lexical fault (line + d)
  | .syntactic fault found => .syntactic fault (found.down d)
  | .static fault found => .static fault (found.down d)
  | .runtime fault line => .runtime fault (line + d)
  | .stackOverflow line => .stackOverflow (line + d)
  | .internal fault => .internal fault
  | .output fault => .output fault

namespace Item

/-- The same item on a later line. -/
def down (d : Nat) : Item → Item
  | token t => token (t.down d)
  | error e => error (e.down d)

end Item

namespace Piece

variable {cs rest : List Char}

/-! ### Pieces -/

theorem takeWhile_newline {p : Char → Bool} (hp : p '\n' = false) :
    (cs ++ '\n' :: rest).takeWhile p = cs.takeWhile p := by
  induction cs with
  | nil => simp [hp]
  | cons c cs ih => by_cases hc : p c <;> simp [hc,ih]

theorem dropWhile_newline {p : Char → Bool} (hp : p '\n' = false) :
    (cs ++ '\n' :: rest).dropWhile p = cs.dropWhile p ++ '\n' :: rest := by
  induction cs with
  | nil => simp [hp]
  | cons c cs ih => by_cases hc : p c <;> simp [hc,ih]

theorem spanNumber_newline : spanNumber (cs ++ '\n' :: rest) =
    ((spanNumber cs).1,(spanNumber cs).2 ++ '\n' :: rest) := by
  have hdigit : Char.isDigit '\n' = false := by decide
  unfold spanNumber
  rw [takeWhile_newline hdigit,dropWhile_newline hdigit]
  generalize cs.dropWhile Char.isDigit = tail
  cases tail with
  | nil => rfl
  | cons c others =>
    by_cases hc : c = '.'
    · subst hc
      cases others with
      | nil => rfl
      | cons d others =>
        have htake : (d :: others ++ '\n' :: rest).takeWhile Char.isDigit = (d :: others).takeWhile Char.isDigit :=
          takeWhile_newline hdigit
        have hdrop : (d :: others ++ '\n' :: rest).dropWhile Char.isDigit =
            (d :: others).dropWhile Char.isDigit ++ '\n' :: rest := dropWhile_newline hdigit
        rw [List.cons_append] at htake hdrop
        simp only [List.cons_append,htake,hdrop]
        split <;> rfl
    · simp [hc]

/-- A text that has a character need not be searched any further for it. -/
theorem dropWhile_found {p : Char → Bool} {q : Char} {tail : List Char} (h : cs.dropWhile p = q :: tail)
    (rest : List Char) :
    (cs ++ rest).takeWhile p = cs.takeWhile p ∧ (cs ++ rest).dropWhile p = q :: (tail ++ rest) := by
  induction cs with
  | nil => simp at h
  | cons c cs ih =>
    by_cases hc : p c
    · rw [List.dropWhile_cons_of_pos hc] at h
      obtain ⟨htake,hdrop⟩ := ih h
      simp [hc,htake,hdrop]
    · rw [List.dropWhile_cons_of_neg hc] at h
      obtain ⟨rfl,rfl⟩ := List.cons_eq_cons.mp h
      simp [hc]

/-- The first piece ends at the newline at the latest. -/
theorem first_newline {c : Char} (h : (first c cs).1.shape ≠ .unclosed) :
    first c (cs ++ '\n' :: rest) = ((first c cs).1,(first c cs).2 ++ '\n' :: rest) := by
  revert h
  unfold first
  split
  · exact fun _ => rfl
  split
  · exact fun _ => rfl
  split
  · intro _
    cases cs with
    | nil => rfl
    | cons d cs =>
      by_cases hd : d = '='
      · subst hd
        rfl
      · simp [hd]
  split
  · intro _
    cases cs with
    | nil => rfl
    | cons d cs =>
      by_cases hd : d = '/'
      · subst hd
        have htake : (cs ++ '\n' :: rest).takeWhile (· ≠ '\n') = cs.takeWhile (· ≠ '\n') :=
          takeWhile_newline rfl
        have hdrop : (cs ++ '\n' :: rest).dropWhile (· ≠ '\n') = cs.dropWhile (· ≠ '\n') ++ '\n' :: rest :=
          dropWhile_newline rfl
        simp only [List.cons_append,htake,hdrop]
      · simp [hd]
  split
  · intro h
    cases hclose : cs.dropWhile (· ≠ '"') with
    | nil =>
      rw [hclose] at h
      exact absurd rfl h
    | cons q tail =>
      obtain ⟨htake,hdrop⟩ := dropWhile_found hclose ('\n' :: rest)
      rw [htake,hdrop]
  split
  · intro _
    rw [← List.cons_append,spanNumber_newline]
  split
  · intro _
    have hname : isNameRest '\n' = false := by decide
    rw [takeWhile_newline hname,dropWhile_newline hname]
  · exact fun _ => rfl

theorem cut_newline (h : ∀ p ∈ cut cs, p.shape ≠ .unclosed) (rest : List Char) :
    cut (cs ++ '\n' :: rest) = cut cs ++ ⟨.blank,['\n']⟩ :: cut rest := by
  fun_induction cut cs with
  | case1 =>
    rw [List.nil_append,cut]
    rfl
  | case2 c cs ih =>
    obtain ⟨hfirst,hothers⟩ := List.forall_mem_cons.mp h
    rw [List.cons_append,cut,first_newline hfirst,ih hothers]
    rfl

/-! ### Lines -/

theorem place_append (here : Position) (ps qs : List Piece) :
    place here (ps ++ qs) = place here ps ++ place (ps.foldl Position.advance here) qs := by
  induction ps generalizing here with
  | nil => rfl
  | cons p ps ih => exact congrArg ((here,p) :: ·) (ih (here.advance p))

theorem items_append (here : Position) (ps qs : List Piece) : items here (ps ++ qs) =
    (place here ps).filterMap (fun q => q.2.item? q.1) ++ items (ps.foldl Position.advance here) qs := by
  simp only [items,place_append,List.filterMap_append,List.foldl_append,List.append_assoc]

theorem item?_down {here there : Position} {d : Nat} (h : there.line = here.line + d) (p : Piece) :
    p.item? there = (p.item? here).map (·.down d) := by
  unfold item?
  split
  · simp only [Option.map_some,Item.down,Token.down,Position.advance,h,Nat.add_right_comm]
  · rfl
  · rfl
  · simp only [Option.map_some,Item.down,Error.down,h]
  · simp only [Option.map_some,Item.down,Error.down,h]

/-- Items depend on lines only, and move down with the point that they start at. -/
theorem items_down {here there : Position} {d : Nat} (h : there.line = here.line + d) (ps : List Piece) :
    items there ps = (items here ps).map (·.down d) := by
  induction ps generalizing here there with
  | nil => simp only [items,place,List.filterMap_nil,List.foldl_nil,h]; rfl
  | cons p ps ih =>
    have hline : (there.advance p).line = (here.advance p).line + d := by
      simp only [Position.advance,h]
      omega
    rw [items_cons,items_cons,item?_down h,ih hline,List.map_append]
    cases p.item? here <;> rfl

theorem line_foldl_advance (here : Position) (ps : List Piece) :
    (ps.foldl Position.advance here).line = here.line + (ps.flatMap text).count '\n' := by
  induction ps generalizing here with
  | nil => rfl
  | cons p ps ih =>
    rw [List.foldl_cons,ih,List.flatMap_cons,List.count_append]
    simp only [Position.advance,newlines]
    omega

end Piece

theorem mem_place_iff {here : Position} {ps : List Piece} {p : Piece} :
    (∃ there, (there,p) ∈ place here ps) ↔ p ∈ ps := by
  induction ps generalizing here with
  | nil => simp [place]
  | cons q ps ih =>
    constructor
    · rintro ⟨there,h⟩
      exact mem_place h
    · intro h
      rcases List.mem_cons.mp h with rfl | h
      · exact ⟨here,List.mem_cons_self⟩
      · obtain ⟨there,hthere⟩ := ih.mpr h
        exact ⟨there,List.mem_cons_of_mem _ hthere⟩

variable {source first rest : String}

/-- Behind a text without an unclosed string and a newline, another text has the same items on later lines. -/
theorem scan_items_newline (hsource : source.toList = first.toList ++ '\n' :: rest.toList)
    (h : ∀ p ∈ Piece.cut first.toList, p.shape ≠ .unclosed) : ∃ items line,
      (scan first).items = items ++ [.token (.eof line)] ∧
        (scan source).items = items ++ (scan rest).items.map (·.down (first.toList.count '\n' + 1)) := by
  refine ⟨_,_,rfl,?_⟩
  let blank : Piece := ⟨.blank,['\n']⟩
  have hline : (((Piece.cut first.toList).foldl Position.advance .start).advance blank).line =
      Position.start.line + (first.toList.count '\n' + 1) := by
    rw [Position.advance,Piece.line_foldl_advance,Piece.flatMap_cut]
    rfl
  have hitems : (scan source).items = Piece.items .start (Piece.cut source.toList) := rfl
  rw [hitems,hsource,Piece.cut_newline h,Piece.items_append,Piece.items_cons,Piece.items_down hline]
  rfl

theorem unclosed_of_mem_cut {p : Piece} (hp : p ∈ Piece.cut source.toList) (hshape : p.shape = .unclosed) :
    ∃ line, .lexical .unterminatedString line ∈ (scan source).errors := by
  obtain ⟨here,hhere⟩ := mem_place_iff.mpr hp
  have hitem : p.item? here = some (.error (.lexical .unterminatedString here.line)) := by
    rw [Piece.item?,hshape]
  have hmem : .error (.lexical .unterminatedString here.line) ∈ (scan source).items :=
    List.mem_append_left _ (List.mem_filterMap.mpr ⟨_,hhere,hitem⟩)
  exact ⟨here.line,List.mem_filterMap.mpr ⟨_,hmem,rfl⟩⟩

/-- Texts joined by a newline are scanned one after the other, whatever the first one ends with and the second one
begins with, unless a string is open at the end of the first. -/
theorem scan_newline (first rest : String)
    (h : ∀ line, .lexical .unterminatedString line ∉ (scan first).errors) : ∃ items line,
      (scan first).items = items ++ [.token (.eof line)] ∧ (scan (first ++ "\n" ++ rest)).items =
        items ++ (scan rest).items.map (·.down (first.toList.count '\n' + 1)) := by
  refine scan_items_newline (by simp) fun p hp hshape => ?_
  obtain ⟨line,hline⟩ := unclosed_of_mem_cut hp hshape
  exact h line hline

/-- The first text has a character that is no token and ends in half an operator, the second begins with the other
half. -/
theorem scan_newline_operator : (∀ line, .lexical .unterminatedString line ∉ (scan "x\né =").errors) ∧
    ∃ items line, (scan "x\né =").items = items ++ [.token (.eof line)] ∧
      (scan ("x\né =" ++ "\n" ++ "= 1")).items = items ++ (scan "= 1").items.map (·.down 2) := by
  have herrors : (scan "x\né =").errors = [.lexical (.unexpected 'é') 2] := by decide +kernel
  have h : ∀ line, .lexical .unterminatedString line ∉ (scan "x\né =").errors := by simp [herrors]
  exact ⟨h,scan_newline "x\né =" "= 1" h⟩

end Lox
